import ChunkRelay.Proofs.Normalisation
import ChunkRelay.Proofs.Sharing

/-! The public key of an identity. It is there from the start, one of its kind and of the right size, and whatever is
done to the identity and fails or succeeds, it stays what it was, and the identity is read back as it is. -/
namespace ChunkRelay

/-- A key that has a value has it in one entry. -/
theorem SortedMap.filter_of_get? {κ ν : Type} [LT κ] [DecidableEq κ] [Std.Irrefl (α := κ) (· < ·)] {m : SortedMap κ ν}
    {k : κ} {v : ν} (h : m.get? k = some v) : m.entries.filter (·.1 = k) = [(k, v)] := by
  have hmem : (k, v) ∈ m.entries.filter (·.1 = k) := List.mem_filter.mpr ⟨get?_eq_some_iff.mp h, by simp⟩
  have hkey : ∀ a ∈ m.entries.filter (·.1 = k), a.1 = k := fun a ha => by simpa using (List.mem_filter.mp ha).2
  have hsorted := m.sorted.filter (·.1 = k)
  generalize m.entries.filter (·.1 = k) = l at hmem hkey hsorted
  match l with
  | [] => cases hmem
  | [a] => rw [List.mem_singleton.mp hmem]
  | a :: b :: l =>
    have hlt := (List.pairwise_cons.mp hsorted).1 b List.mem_cons_self
    rw [hkey a (by simp), hkey b (by simp)] at hlt
    exact absurd hlt (Std.Irrefl.irrefl k)

namespace Identity

variable {i j : Identity}

theorem sound_of_parse {b : Bytes} {n : Nat} (h : Packet.parse .identity b = .ok (.identity (.live i), n)) :
    i.Sound := by
  obtain ⟨payload, hpayload⟩ := Packet.exists_payload_of_parse h
  obtain ⟨_, r, hi, -, hr⟩ := Packet.ofPayload_identity hpayload
  cases hi
  exact sound_of_ofRaw hr

theorem Sound.faithful (hs : i.Sound) : (Packet.identity (.live i)).Faithful :=
  Packet.faithful_identity fun j hj => by
    cases hj
    exact hs

/-- The ways to come by an identity. -/
inductive Origin : Identity → Prop
  | created {name : String} {key : Bytes} {i : Identity} : new name key = .ok i → Origin i
  | parsed {b : Bytes} {n : Nat} {i : Identity} : Packet.parse .identity b = .ok (.identity (.live i), n) → Origin i

theorem Origin.sound (h : Origin i) : i.Sound := by
  cases h with
  | created h => exact sound_of_new h
  | parsed h => exact sound_of_parse h

/-- What is done to an identity. -/
inductive Step where
  | insert (key : String) (value : Bytes)
  | remove (key : String)
  | sign (secret : Bytes)
  | update (secret : Bytes) (edits : List Edit)
  /-- Encodes the identity and goes on with what is parsed from that. -/
  | reparse

/-- The packet that is parsed from the encoding of an identity. -/
def reparsed (i : Identity) : Except PacketError (Packet × Nat) :=
  (Packet.identity (.live i)).encode >>= Packet.parse .identity

/-- The identity after a step. A step that fails leaves it as it is. -/
def after (i : Identity) : Step → Identity
  | .insert k v =>
    match i.insert k v with
    | .ok (_, j) => j
    | .error _ => i
  | .remove k =>
    match i.remove k with
    | .ok (_, j) => j
    | .error _ => i
  | .sign secret =>
    match i.sign secret with
    | .ok j => j
    | .error _ => i
  | .update secret edits =>
    match i.update secret edits with
    | .ok j => j
    | .error _ => i
  | .reparse =>
    match i.reparsed with
    | .ok (.identity (.live j), _) => j
    | _ => i

/-- What every identity that comes of `i` keeps. -/
structure Guards (i j : Identity) : Prop where
  name_eq : j.name = i.name
  name_ne : j.name ≠ ""
  one_key : ∃ k, k.size = publicKeyLength ∧ j.keys.entries.filter (·.1 = reservedKey) = [(reservedKey, k)]
  publicKey_eq : j.publicKey = i.publicKey
  fingerprint_eq : j.fingerprint = i.fingerprint
  signature_ne : j.signature ≠ some ByteArray.empty
  parse_eq : (IdentityPacket.live j).encode.size ≤ Frame.maxLength →
    ∃ b, (Packet.identity (.live j)).encode = .ok b ∧
      ∀ r, Packet.parse .identity (b ++ r) = .ok (.identity (.live j), b.size)

/-- A sound identity with the name and the public key of another one. -/
structure Stands (i j : Identity) : Prop where
  sound : j.Sound
  name_eq : j.name = i.name
  key_eq : j.get? reservedKey = i.get? reservedKey

theorem Stands.keeps (h : Stands i j) : Guards i j where
  name_eq := h.name_eq
  name_ne := h.sound.name_ne
  one_key :=
    let ⟨k, hk, hsize⟩ := h.sound.publicKey_size
    ⟨k, hsize, SortedMap.filter_of_get? hk⟩
  publicKey_eq := by rw [publicKey, publicKey, h.key_eq]
  fingerprint_eq := by rw [fingerprint, fingerprint, publicKey, publicKey, h.key_eq]
  signature_ne := h.sound.signature_ne
  parse_eq := h.sound.faithful.parse_self

theorem Stands.trans {k : Identity} (hij : Stands i j) (hjk : Stands j k) : Stands i k :=
  ⟨hjk.sound, hjk.name_eq.trans hij.name_eq, hjk.key_eq.trans hij.key_eq⟩

theorem Sound.stands (hs : i.Sound) : Stands i i := ⟨hs, rfl, rfl⟩

/-- Edits of other keys, with or without a new signature. -/
theorem Sound.stands_edited (hs : i.Sound) {edits : List Edit} (he : ∀ e ∈ edits, e.key ≠ reservedKey) :
    Stands i { i with keys := edited i.keys edits } := by
  have hkey : (edited i.keys edits).get? reservedKey = i.keys.get? reservedKey := by
    have hnone : edits.findRev? (·.key = reservedKey) = none := by
      rw [List.findRev?_eq_find?_reverse, List.find?_eq_none]
      intro e hmem
      simpa using he e (List.mem_reverse.mp hmem)
    rw [get?_edited, hnone]
    rfl
  exact ⟨hs.withKeys hkey, rfl, hkey⟩

theorem Sound.stands_signed (hs : i.Sound) {secret : Bytes} (h : i.sign secret = .ok j) : Stands i j := by
  have hsound := hs.sign h
  obtain ⟨sig, -, rfl⟩ := sign_eq_ok_iff.mp h
  exact ⟨hsound, rfl, rfl⟩

theorem Sound.stands_updated (hs : i.Sound) {secret : Bytes} {edits : List Edit}
    (h : i.update secret edits = .ok j) : Stands i j := by
  by_cases hreserved : ∃ e ∈ edits, e.key = reservedKey
  · simp [update, foldlM_edit, hreserved] at h
  · have hedited : Stands i { i with keys := edited i.keys edits } :=
      hs.stands_edited fun e he hkey => hreserved ⟨e, he, hkey⟩
    simp only [update, foldlM_edit, if_neg hreserved] at h
    cases hsign : ({ i with keys := edited i.keys edits } : Identity).sign secret with
    | error x => simp [hsign] at h
    | ok k =>
      simp only [hsign, mapError_ok, Except.ok.injEq] at h
      exact h ▸ hedited.trans (hedited.sound.stands_signed hsign)

/-- An identity that can be encoded is parsed as it is. -/
theorem Sound.eq_of_reparsed (hs : i.Sound) {n : Nat} (h : i.reparsed = .ok (.identity (.live j), n)) : j = i := by
  cases hb : (Packet.identity (.live i)).encode with
  | error x => simp [reparsed, hb, bind, Except.bind] at h
  | ok b =>
    have hself : Packet.parse .identity (b ++ ByteArray.empty) = .ok (.identity (.live i), b.size) :=
      Packet.parse_append hs.faithful hb ByteArray.empty
    rw [ByteArray.append_empty] at hself
    simp only [reparsed, hb, bind, Except.bind, hself] at h
    cases h
    rfl

/-- A step leaves the name and the public key alone. -/
theorem Sound.stands_after (hs : i.Sound) (s : Step) : Stands i (i.after s) := by
  cases s with
  | insert k v =>
    simp only [after]
    split
    · rename_i h
      obtain ⟨hk, hr⟩ := insert_eq_ok_iff.mp h
      rw [(Prod.mk.inj hr).2]
      have hkeys : ∀ e ∈ [Edit.insert k v], e.key ≠ reservedKey := List.forall_mem_singleton.mpr hk
      exact hs.stands_edited hkeys
    · exact hs.stands
  | remove k =>
    simp only [after]
    split
    · rename_i h
      obtain ⟨hk, hr⟩ := remove_eq_ok_iff.mp h
      rw [(Prod.mk.inj hr).2]
      have hkeys : ∀ e ∈ [Edit.remove k], e.key ≠ reservedKey := List.forall_mem_singleton.mpr hk
      exact hs.stands_edited hkeys
    · exact hs.stands
  | sign secret =>
    simp only [after]
    split
    · exact hs.stands_signed ‹_›
    · exact hs.stands
  | update secret edits =>
    simp only [after]
    split
    · exact hs.stands_updated ‹_›
    · exact hs.stands
  | reparse =>
    simp only [after]
    split
    · rename_i h
      rw [hs.eq_of_reparsed h]
      exact hs.stands
    · exact hs.stands

theorem Sound.stands_run (hs : i.Sound) (steps : List Step) : Stands i (steps.foldl after i) := by
  induction steps generalizing i with
  | nil => exact hs.stands
  | cons s steps ih =>
    have hstep := hs.stands_after s
    exact hstep.trans (ih hstep.sound)

/-- Whatever is done to an identity that was created or parsed, it keeps its name and its one public key. -/
theorem Origin.guards_of_steps (h : Origin i) (steps : List Step) : Guards i (steps.foldl after i) :=
  (h.sound.stands_run steps).keeps

/-- An identity whose public key is to be replaced, and that is sent on under another key. -/
theorem guards_of_attempts :
    let i : Identity := ⟨"bob", SortedMap.empty.insert reservedKey (Bytes.replicate 32 7), none⟩
    Origin i ∧ Guards i ([.insert reservedKey (Bytes.replicate 32 9), .insert "mail" ⟨#[1]⟩, .remove reservedKey,
      .update (Bytes.replicate 3 0) [.remove "mail"], .reparse].foldl after i) := by
  intro i
  have hnew : Identity.new "bob" (Bytes.replicate 32 7) = .ok i := rfl
  have hi : Origin i := .created hnew
  exact ⟨hi, hi.guards_of_steps _⟩

end Identity
end ChunkRelay
