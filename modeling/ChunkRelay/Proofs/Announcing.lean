import ChunkRelay.Proofs.Normalisation

/-! What a declaration announces. A node that has something announces the first of it, and no more than it may; one that
has nothing opts out. The peer reads the same declaration and wants the same, and a declaration that opts out lists
nothing, wherever it comes from. -/
namespace ChunkRelay
namespace Declaration

/-! Announcing what is known. -/

theorem nodup_eraseDups (l : List Hash) : l.eraseDups.Nodup := by
  match l with
  | [] => exact .nil
  | h :: l =>
    rw [List.eraseDups_cons, List.nodup_cons]
    refine ⟨fun hmem => ?_, nodup_eraseDups _⟩
    simp [List.mem_eraseDups] at hmem
  termination_by l.length
  decreasing_by exact Nat.lt_succ_of_le (List.length_filter_le _ _)

/-- A set has as many hashes as it was put together of, if they are told apart. -/
theorem length_setOf {l : List Hash} (hl : l.Nodup) : (setOf l).entries.length = l.length := by
  have hkeys : (setOf l).keys.Nodup := by
    refine List.pairwise_map.mpr ((setOf l).sorted.imp fun {a b} hlt he => ?_)
    rw [he] at hlt
    exact Std.Irrefl.irrefl _ hlt
  have hperm : (setOf l).keys.Perm l := by
    rw [List.perm_ext_iff_of_nodup hkeys hl]
    intro k
    rw [SortedMap.mem_keys_iff, ← SortedMap.contains_eq, contains_setOf]
  rw [← hperm.length_eq, SortedMap.keys, List.length_map]

theorem eraseDups_eq_nil_iff {l : List Hash} : l.eraseDups = [] ↔ l = [] := by
  cases l with
  | nil => simp
  | cons h l => simp [List.eraseDups_cons]

/-- The declaration says what there is to say of these hashes with this cap, and a peer reads it as it is. -/
structure Announces (known : List Hash) (cap : Nat) (d : Declaration) : Prop where
  optOut_iff : d.optOut = true ↔ known = [] ∨ cap = 0
  /-- The first hashes that are known, each counted once. -/
  hashes_eq : d.hashes = setOf (known.eraseDups.take cap)
  length_eq : d.hashes.entries.length = min cap known.eraseDups.length
  wants_iff (k : Hash) : d.wants k = false ↔ known = [] ∨ cap = 0 ∨ k ∈ known.eraseDups.take cap
  parse_eq : d.encode.size ≤ Frame.maxLength →
    ∃ b, (Packet.declare d).encode = .ok b ∧ ∀ r, Packet.parse .declareHashes (b ++ r) = .ok (.declare d, b.size)

theorem ofKnown_of_nothing {known : List Hash} {cap : Nat} (h : known = [] ∨ cap = 0) : ofKnown known cap = none := by
  have htaken : known.eraseDups.take cap = [] := by rcases h with rfl | rfl <;> simp
  rw [ofKnown, collect_empty, htaken]
  rfl

theorem ofKnown_of_some {known : List Hash} {cap : Nat} (h : ¬ (known = [] ∨ cap = 0)) :
    ofKnown known cap = ofHashes (known.eraseDups.take cap) := by
  have htaken : (setOf (known.eraseDups.take cap)).isEmpty = false := by
    rw [Bool.eq_false_iff, ne_eq, isEmpty_setOf_iff, List.take_eq_nil_iff, eraseDups_eq_nil_iff, or_comm]
    exact h
  rw [ofKnown, collect_empty, htaken]
  rfl

theorem announces_ofKnown (known : List Hash) (cap : Nat) : Announces known cap (ofKnown known cap) := by
  have hparse := (Packet.faithful_declare (sound_ofKnown known cap)).parse_self
  by_cases h : known = [] ∨ cap = 0
  · have htaken : known.eraseDups.take cap = [] := by rcases h with rfl | rfl <;> simp
    have hcount : min cap known.eraseDups.length = 0 := by rw [← List.length_take, htaken]; rfl
    rw [ofKnown_of_nothing h] at hparse ⊢
    refine ⟨by simp [none, h], by rw [htaken]; rfl, by rw [hcount]; rfl, fun k => ?_, hparse⟩
    rw [← or_assoc]
    exact iff_of_true rfl (.inl h)
  · rw [ofKnown_of_some h] at hparse ⊢
    refine ⟨by simp [ofHashes, h], rfl, ?_, fun k => ?_, hparse⟩
    · rw [← List.length_take]
      exact length_setOf ((nodup_eraseDups known).sublist (List.take_sublist _ _))
    · rw [← or_assoc, or_iff_right h, ← contains_setOf]
      simp [wants, ofHashes]

/-! Building. -/

/-- The hashes that a call gives to the builder. -/
def Call.given : Call → List Hash
  | .optOut => []
  | .hash h => [h]
  | .hashes l => l

theorem hashes_foldl_apply (d : Declaration) (calls : List Call) :
    (calls.foldl apply d).hashes = (calls.flatMap Call.given).foldl (·.insert · ()) d.hashes := by
  induction calls generalizing d with
  | nil => rfl
  | cons c calls ih =>
    rw [List.foldl_cons, ih, List.flatMap_cons, List.foldl_append]
    cases c <;> rfl

theorem optOut_foldl_apply (d : Declaration) (calls : List Call) :
    (calls.foldl apply d).optOut = true ↔ d.optOut = true ∨ Call.optOut ∈ calls := by
  induction calls generalizing d with
  | nil => simp
  | cons c calls ih =>
    rw [List.foldl_cons, ih]
    cases c <;> simp [apply]

/-- The calls contradict each other, in whatever order they come. -/
def Contradictory (calls : List Call) : Prop := Call.optOut ∈ calls ∧ calls.flatMap Call.given ≠ []

/-- What the calls come to: a refusal if they contradict each other, or else the declaration of what they give. -/
structure Builds (calls : List Call) (r : Except PolicyError Declaration) : Prop where
  refused_iff (e : PolicyError) : r = .error e ↔ e = .optOutWithHashes ∧ Contradictory calls
  built_iff (d : Declaration) : r = .ok d ↔ ¬ Contradictory calls ∧
    (d.optOut = true ↔ Call.optOut ∈ calls) ∧ d.hashes = setOf (calls.flatMap Call.given)

theorem builds_build (calls : List Call) : Builds calls (build calls) := by
  have hout := optOut_foldl_apply ⟨false, .empty⟩ calls
  have hhashes := hashes_foldl_apply ⟨false, .empty⟩ calls
  rw [← setOf_eq_foldl] at hhashes
  simp only [Bool.false_eq_true, false_or] at hout
  simp only [build]
  generalize calls.foldl apply ⟨false, .empty⟩ = d at hout hhashes
  have hboth : (d.optOut && !d.hashes.isEmpty) = true ↔ Contradictory calls := by
    rw [Bool.and_eq_true, hout, hhashes, Bool.not_eq_true', Bool.eq_false_iff, ne_eq, isEmpty_setOf_iff]
    rfl
  split
  · rename_i h
    have hcontra := hboth.mp h
    exact ⟨fun e => by simp [hcontra, eq_comm], fun d' => by simp [hcontra]⟩
  · rename_i h
    have hcontra : ¬ Contradictory calls := fun hc => h (hboth.mpr hc)
    refine ⟨fun e => by simp [hcontra], fun d' => ?_⟩
    simp only [Except.ok.injEq, hcontra, not_false_eq_true, true_and]
    constructor
    · rintro rfl
      exact ⟨hout, hhashes⟩
    · rintro ⟨hout', hhashes'⟩
      obtain ⟨out, hashes⟩ := d
      obtain ⟨out', hashes'⟩ := d'
      obtain rfl : out = out' := Bool.eq_iff_iff.mpr (hout.trans hout'.symm)
      rw [show hashes = hashes' from hhashes.trans hhashes'.symm]

/-! Declarations of every origin. -/

/-- The ways to come by a declaration. -/
inductive Origin : Declaration → Prop
  | made {d : Declaration} : d.Made → Origin d
  | parsed {d : Declaration} {b : Bytes} {n : Nat} : Packet.parse .declareHashes b = .ok (.declare d, n) → Origin d

theorem Origin.sound {d : Declaration} (h : d.Origin) : d.Sound := by
  cases h with
  | made h => exact h.sound
  | parsed h =>
    obtain ⟨payload, hpayload⟩ := Packet.exists_payload_of_parse h
    obtain ⟨_, hd, hrun⟩ := Packet.ofPayload_declare hpayload
    cases hd
    exact sound_of_run hrun

/-- What is known is announced faithfully, no declaration opts out and lists hashes all the same, and building one
fails exactly if that is asked for. -/
theorem announces_and_excludes :
    (∀ known cap, Announces known cap (ofKnown known cap)) ∧
    (∀ d : Declaration, d.Origin → d.optOut = true → d.hashes = .empty) ∧
    ∀ calls, Builds calls (build calls) :=
  ⟨announces_ofKnown, fun _ h => h.sound, builds_build⟩

end Declaration
end ChunkRelay
