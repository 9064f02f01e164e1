import ChunkRelay.Proofs.Stream
import ChunkRelay.Transfer.Session

/-! Runs of a feed: the packets that pulling it gives, one after another, and how the pulling ends. What
a loop over a feed comes to is read off the run of the feed. -/
namespace ChunkRelay

/-- The bytes that packets carry, one after another. -/
def Sequence.content (l : List Sequence) : Bytes := Bytes.concat (l.map Sequence.bytes)

@[simp] theorem Sequence.content_nil : content [] = ByteArray.empty := rfl

@[simp] theorem Sequence.content_cons (p : Sequence) (l : List Sequence) :
    content (p :: l) = p.bytes ++ content l := by
  simp [content]

@[simp] theorem Sequence.content_append (l m : List Sequence) :
    content (l ++ m) = content l ++ content m := by
  simp [content]

namespace PacketFeed

variable {σ ω : Type} [PacketFeed σ]

/-- Pulling `s` gives the packets `l` without a failure and leads to `s'`. -/
inductive Pulls : σ → List Sequence → σ → Prop
  | nil {s : σ} : Pulls s [] s
  | cons {s t s' : σ} {p : Sequence} {l : List Sequence} :
      PacketFeed.next s = (some (.ok p), t) → Pulls t l s' → Pulls s (p :: l) s'

/-- Pulling `s` gives the packets `l`, then the feed ends, or fails with `e`, and is left as `s'`. -/
def Runs (s : σ) (l : List Sequence) (e : Option TransferError) (s' : σ) : Prop :=
  ∃ t, Pulls s l t ∧ PacketFeed.next t = (e.map .error, s')

/-- Pulling `s` to its end gives the packets `l` without a failure and leads to `s'`. -/
abbrev Drains (s : σ) (l : List Sequence) (s' : σ) : Prop := Runs s l none s'

theorem Pulls.append {s t s' : σ} {l m : List Sequence} (h : Pulls s l t) (h' : Pulls t m s') :
    Pulls s (l ++ m) s' := by
  induction h with
  | nil => exact h'
  | cons hn _ ih => exact .cons hn (ih h')

theorem runs_nil_iff {s s' : σ} {e : Option TransferError} :
    Runs s [] e s' ↔ PacketFeed.next s = (e.map .error, s') := by
  constructor
  · rintro ⟨t, hp, hn⟩
    cases hp
    exact hn
  · intro h
    exact ⟨s, .nil, h⟩

theorem runs_cons_iff {s s' : σ} {p : Sequence} {l : List Sequence} {e : Option TransferError} :
    Runs s (p :: l) e s' ↔ ∃ t, PacketFeed.next s = (some (.ok p), t) ∧ Runs t l e s' := by
  constructor
  · rintro ⟨u, hp, hn⟩
    cases hp with
    | cons h hp => exact ⟨_, h, u, hp, hn⟩
  · rintro ⟨t, h, u, hp, hn⟩
    exact ⟨u, .cons h hp, hn⟩

/-- A feed runs in one way. -/
theorem Runs.unique {s s' s'' : σ} {l m : List Sequence} {e f : Option TransferError} (h : Runs s l e s')
    (h' : Runs s m f s'') : l = m ∧ e = f := by
  induction l generalizing s m with
  | nil =>
    have hn := runs_nil_iff.mp h
    cases m with
    | nil =>
      have hn' := runs_nil_iff.mp h'
      rw [hn] at hn'
      refine ⟨rfl, Option.map_injective (fun x y hxy => Except.error.inj hxy) (Prod.mk.inj hn').1⟩
    | cons q m =>
      obtain ⟨t, hn', -⟩ := runs_cons_iff.mp h'
      rw [hn] at hn'
      cases e <;> cases hn'
  | cons p l ih =>
    obtain ⟨t, hn, hr⟩ := runs_cons_iff.mp h
    cases m with
    | nil =>
      have hn' := runs_nil_iff.mp h'
      rw [hn] at hn'
      cases f <;> cases hn'
    | cons q m =>
      obtain ⟨t', hn', hr'⟩ := runs_cons_iff.mp h'
      rw [hn] at hn'
      cases hn'
      obtain ⟨rfl, rfl⟩ := ih hr hr'
      exact ⟨rfl, rfl⟩

/-! Lists of packets. -/

theorem drains_list (l : List Sequence) : Drains (l.map .ok : List Delivery) l [] := by
  induction l with
  | nil => exact runs_nil_iff.mpr rfl
  | cons p l ih => exact runs_cons_iff.mpr ⟨l.map .ok, rfl, ih⟩

theorem eq_of_drains_list {l m : List Sequence} {s : List Delivery} (h : Drains (l.map .ok : List Delivery) m s) :
    m = l :=
  (h.unique (drains_list l)).1

/-! Loops. -/

/-- An action on packets that never fails and changes only what goes along with the feed, by `g`, as
long as `I` holds of it. -/
def Accumulates (act : Sequence → σ × ω → Except TransferError Unit × (σ × ω)) (g : ω → Sequence → ω)
    (I : ω → Prop) : Prop :=
  ∀ p s w, I w → act p (s, w) = (.ok (), (s, g w p)) ∧ I (g w p)

theorem next_pair (s : σ) (w : ω) :
    PacketFeed.next (s, w) = ((PacketFeed.next s).1, ((PacketFeed.next s).2, w)) := rfl

/-- The loop acts on the packets of the run and ends as the run does. -/
theorem forEach_of_runs {act : Sequence → σ × ω → Except TransferError Unit × (σ × ω)}
    {g : ω → Sequence → ω} {I : ω → Prop} (ha : Accumulates act g I) {s s' : σ} {l : List Sequence}
    {e : Option TransferError} (h : Runs s l e s') {w : ω} (hw : I w) {fuel : Nat} (count : Nat)
    (hf : l.length < fuel) :
    forEach act fuel count (s, w) =
      (e.elim (.ok (count + l.length)) .error, (s', l.foldl g w)) := by
  induction l generalizing s w fuel count with
  | nil =>
    have hn := runs_nil_iff.mp h
    cases fuel with
    | zero => cases hf
    | succ fuel => cases e <;> simp [forEach, next_pair, hn]
  | cons p l ih =>
    obtain ⟨t, hn, hr⟩ := runs_cons_iff.mp h
    obtain ⟨hact, hI⟩ := ha p t w hw
    cases fuel with
    | zero => cases hf
    | succ fuel =>
      have hrest := ih hr hI (count + 1) (Nat.lt_of_succ_lt_succ hf)
      simp only [forEach, next_pair, hn, hact, hrest, List.foldl_cons, List.length_cons]
      rw [Nat.add_assoc, Nat.add_comm 1]

theorem drain_of_runs {s s' : σ} {l : List Sequence} {e : Option TransferError} (h : Runs s l e s')
    {fuel : Nat} (hf : l.length < fuel) : drain fuel s = (e.elim (.ok l.length) .error, s') := by
  suffices hc : ∀ count, forEach (fun _ s => (.ok (), s)) fuel count s =
      (e.elim (.ok (count + l.length)) .error, s') by
    simpa [drain] using hc 0
  induction l generalizing s fuel with
  | nil =>
    intro count
    have hn := runs_nil_iff.mp h
    cases fuel with
    | zero => cases hf
    | succ fuel => cases e <;> simp [forEach, hn]
  | cons p l ih =>
    intro count
    obtain ⟨t, hn, hr⟩ := runs_cons_iff.mp h
    cases fuel with
    | zero => cases hf
    | succ fuel =>
      have hrest := ih hr (Nat.lt_of_succ_lt_succ hf) (count + 1)
      simp only [forEach, hn, hrest, List.length_cons]
      rw [Nat.add_assoc, Nat.add_comm 1]

end PacketFeed
end ChunkRelay
