import ChunkRelay.Proofs.Sorted
import ChunkRelay.Datastore

/-! Laws of datastores. They speak of what a datastore holds, and leave open how it keeps it and which of
its calls fail. -/
namespace ChunkRelay
namespace Datastore

variable {δ ν : Type} [Datastore δ]

/-- What a datastore holds, as `held` sees it, is changed neither by a look for a message nor by a message
that it fails to take. -/
structure Guarded (held : δ → ν) : Prop where
  held_hasKey (k : Hash) (d : δ) : held (hasKey k d).2 = held d
  held_countPath (p : String) (d : δ) : held (countPath p d).2 = held d
  held_of_rejected {m : Message} {d d' : δ} {e : String} : persist m d = (.error e, d') → held d' = held d

/-- A datastore of messages by their keys. It takes a message unless it holds one with its key. -/
structure Lawful (held : δ → Hash → Option Message) : Prop extends Guarded held where
  hasKey_ok {k : Hash} {d d' : δ} {b : Bool} : hasKey k d = (.ok b, d') → b = (held d k).isSome
  get?_ok {k : Hash} {d d' : δ} {r : Option Message} : get? k d = (.ok r, d') → r = held d k
  persist_ok {m : Message} {d d' : δ} {b : Bool} : persist m d = (.ok b, d') →
    b = (held d m.contentKey).isNone ∧
      ∀ k, held d' k = if b ∧ k = m.contentKey then some m else held d k

theorem Lawful.held_of_persisted {held : δ → Hash → Option Message} (h : Lawful held) {m : Message} {d d' : δ}
    (hp : persist m d = (.ok true, d')) : held d' m.contentKey = some m := by
  rw [(h.persist_ok hp).2, if_pos ⟨rfl, rfl⟩]

/-- A datastore fails neither to take a message nor to give back what it has under the key of that message. -/
def Serves (d : δ) (m : Message) : Prop :=
  ∃ b d', persist m d = (.ok b, d') ∧ ∃ r d'', get? m.contentKey d' = (.ok r, d'')

/-- A message with a new key is taken and given back. -/
theorem Serves.of_new {held : δ → Hash → Option Message} (hd : Lawful held) {m : Message} {d : δ} (hs : Serves d m)
    (hnew : held d m.contentKey = none) :
    ∃ d' d'', persist m d = (.ok true, d') ∧ get? m.contentKey d' = (.ok (some m), d'') := by
  obtain ⟨b, d', hp, r, d'', hg⟩ := hs
  obtain rfl : b = true := by rw [(hd.persist_ok hp).1, hnew, Option.isNone_none]
  obtain rfl : r = some m := by rw [hd.get?_ok hg, hd.held_of_persisted hp]
  exact ⟨d', d'', hp, hg⟩

end Datastore

/-- A datastore that keeps nothing loses nothing. -/
theorem ConstantStore.guarded {ν : Type} (held : ConstantStore → ν) : Datastore.Guarded held where
  held_hasKey _ _ := rfl
  held_countPath _ _ := rfl
  held_of_rejected {m d d' e} h := by
    obtain rfl : d = d' := congrArg Prod.snd h
    rfl

theorem MemoryStore.lawful : Datastore.Lawful fun (s : MemoryStore) k => s.messages.get? k where
  held_hasKey _ _ := rfl
  held_countPath _ _ := rfl
  held_of_rejected {m d d' e} h := by
    change (if d.messages.contains m.contentKey then (Except.ok false, d) else (.ok true, d.add m)) = _ at h
    split at h <;> cases h
  hasKey_ok h := by
    cases h
    exact SortedMap.contains_eq ..
  get?_ok h := by
    cases h
    rfl
  persist_ok {m d d' b} h := by
    change (if d.messages.contains m.contentKey then (Except.ok false, d) else (.ok true, d.add m)) = _ at h
    rw [SortedMap.contains_eq] at h
    cases hm : d.messages.get? m.contentKey with
    | some n =>
      simp only [hm, Option.isSome_some, if_true] at h
      cases h
      exact ⟨rfl, fun k => by simp⟩
    | none =>
      simp only [hm, Option.isSome_none] at h
      cases h
      refine ⟨rfl, fun k => ?_⟩
      simp only [true_and]
      exact SortedMap.get?_insert ..

theorem MemoryStore.serves (s : MemoryStore) (m : Message) : Datastore.Serves s m := by
  have hp : Datastore.persist m s = if s.messages.contains m.contentKey then (.ok false, s) else (.ok true, s.add m) :=
    rfl
  cases hc : s.messages.contains m.contentKey with
  | true => exact ⟨false, s, by rw [hp, hc]; rfl, _, _, rfl⟩
  | false => exact ⟨true, s.add m, by rw [hp, hc]; rfl, _, _, rfl⟩

end ChunkRelay
