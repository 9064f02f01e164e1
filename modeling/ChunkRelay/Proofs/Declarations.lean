import ChunkRelay.Proofs.Framing
import ChunkRelay.Proofs.Sorted

/-! Declarations as packets. No declaration opts out and lists hashes all the same, and decoding the
encoding of one gives the same declaration again. -/
namespace ChunkRelay
namespace Declaration

/-- The declarations that there can be. -/
inductive Made : Declaration → Prop
  | none : Made none
  | ofHashes (l : List Hash) : Made (ofHashes l)
  | ofKnown (known : List Hash) (cap : Nat) : Made (ofKnown known cap)
  | built {calls : List Call} {d : Declaration} : build calls = .ok d → Made d
  | decoded (optOut : Bool) (hashes : List Hash) : Made (ofRaw optOut hashes)

/-- What every declaration keeps. -/
def Sound (d : Declaration) : Prop := d.optOut = true → d.hashes = .empty

theorem eq_empty_of_isEmpty {s : HashSet} (h : s.isEmpty = true) : s = .empty :=
  SortedMap.ext (List.isEmpty_iff.mp h)

theorem sound_ofHashes (l : List Hash) : (ofHashes l).Sound := fun h => by cases h

theorem sound_ofKnown (known : List Hash) (cap : Nat) : (ofKnown known cap).Sound := by
  simp only [ofKnown]
  split
  · exact fun _ => rfl
  · exact fun h => by cases h

theorem sound_of_build {calls : List Call} {d : Declaration} (h : build calls = .ok d) : d.Sound := by
  unfold build at h
  simp only at h
  split at h
  · cases h
  · rename_i hboth
    cases h
    intro hout
    simp only [hout, Bool.true_and, Bool.not_eq_true', Bool.not_eq_false] at hboth
    exact eq_empty_of_isEmpty hboth

theorem sound_ofRaw (optOut : Bool) (hashes : List Hash) : (ofRaw optOut hashes).Sound := by
  cases optOut with
  | true => exact fun _ => rfl
  | false => exact sound_ofHashes hashes

theorem Made.sound {d : Declaration} (hm : d.Made) : d.Sound := by
  cases hm with
  | none => exact fun _ => rfl
  | ofHashes l => exact sound_ofHashes l
  | ofKnown known cap => exact sound_ofKnown known cap
  | built h => exact sound_of_build h
  | decoded optOut hashes => exact sound_ofRaw optOut hashes

theorem contains_insert {s : HashSet} {h k : Hash} :
    (s.insert h ()).contains k = true ↔ s.contains k = true ∨ k = h := by
  rw [SortedMap.contains_eq, SortedMap.contains_eq, SortedMap.get?_insert]
  by_cases hk : k = h <;> simp [hk]

theorem contains_foldl_insert {s : HashSet} {l : List Hash} {k : Hash} :
    (l.foldl (·.insert · ()) s).contains k = true ↔ s.contains k = true ∨ k ∈ l := by
  induction l generalizing s with
  | nil => simp
  | cons h l ih => rw [List.foldl_cons, ih, contains_insert, List.mem_cons, or_assoc]

theorem setOf_eq_foldl (l : List Hash) : setOf l = l.foldl (·.insert · ()) .empty := by
  rw [setOf, SortedMap.ofList, List.foldl_map]

/-- A set has what it was put together of. -/
theorem contains_setOf {l : List Hash} {k : Hash} : (setOf l).contains k = true ↔ k ∈ l := by
  rw [setOf_eq_foldl, contains_foldl_insert]
  simp [SortedMap.contains, SortedMap.empty]

theorem setOf_eq_empty_iff {l : List Hash} : setOf l = .empty ↔ l = [] := by
  refine ⟨fun h => List.eq_nil_iff_forall_not_mem.mpr fun k hk => ?_, fun h => h ▸ rfl⟩
  rw [← contains_setOf, h] at hk
  cases hk

theorem isEmpty_setOf_iff {l : List Hash} : (setOf l).isEmpty = true ↔ l = [] :=
  ⟨fun h => setOf_eq_empty_iff.mp (eq_empty_of_isEmpty h), fun h => h ▸ rfl⟩

/-- What comes in is the first hashes of the list that are new, each counted once, as many as the cap leaves room
for. -/
theorem collect_eq (cap : Nat) (s : HashSet) (l : List Hash) :
    collect cap s l = (((l.filter (!s.contains ·)).eraseDups).take (cap - s.entries.length)).foldl (·.insert · ()) s := by
  induction l generalizing s with
  | nil => simp [collect]
  | cons h l ih =>
    rw [collect]
    split
    · rw [Nat.sub_eq_zero_of_le ‹_›]
      rfl
    rename_i hroom
    cases hold : s.contains h with
    | true =>
      have hsame : s.insert h () = s := by
        rw [SortedMap.contains_eq, Option.isSome_iff_exists] at hold
        exact SortedMap.insert_of_get? hold.choose_spec
      rw [hsame, ih, List.filter_cons_of_neg (by simp [hold])]
    | false =>
      -- the grown set filters the rest as `eraseDups` does once it has kept `h`
      have hnew : (s.insert h ()).entries.length = s.entries.length + 1 := by
        rw [SortedMap.contains_eq, Option.isSome_eq_false_iff, Option.isNone_iff_eq_none] at hold
        exact (SortedMap.perm_insert hold ()).length_eq
      have hrest : l.filter (!(s.insert h ()).contains ·) = (l.filter (!s.contains ·)).filter (fun k => !k == h) := by
        rw [List.filter_filter]
        refine List.filter_congr fun k _ => ?_
        rw [Bool.eq_iff_iff]
        simp [← Bool.not_eq_true, contains_insert, not_or, and_comm]
      have hleft : cap - s.entries.length = (cap - (s.entries.length + 1)) + 1 := by omega
      rw [ih, hnew, hrest, List.filter_cons_of_pos (by simp [hold]), List.eraseDups_cons, hleft, List.take_succ_cons,
        List.foldl_cons]

/-- A declaration lists the first hashes that are known, up to its cap. -/
theorem collect_empty (cap : Nat) (known : List Hash) :
    collect cap .empty known = setOf (known.eraseDups.take cap) := by
  have hall : known.filter (!(SortedMap.empty : HashSet).contains ·) = known :=
    List.filter_eq_self.mpr fun _ _ => rfl
  rw [collect_eq, hall, setOf_eq_foldl]
  rfl

theorem length_eraseDups_le (l : List Hash) : l.eraseDups.length ≤ l.length := by
  match l with
  | [] => exact Nat.le_refl _
  | h :: l =>
    have hrest := length_eraseDups_le (l.filter fun k => !k == h)
    have hfilter := List.length_filter_le (fun k => !k == h) l
    rw [List.eraseDups_cons, List.length_cons, List.length_cons]
    omega
  termination_by l.length
  decreasing_by exact Nat.lt_succ_of_le (List.length_filter_le _ _)

/-- What a peer knows of and can announce in full is what it does not want. -/
theorem wants_ofKnown_iff {known : List Hash} {cap : Nat} (hne : known ≠ []) (hcap : known.length ≤ cap) (k : Hash) :
    (ofKnown known cap).wants k = true ↔ k ∉ known := by
  have hall : known.eraseDups.take cap = known.eraseDups :=
    List.take_of_length_le (Nat.le_trans (length_eraseDups_le known) hcap)
  have hsome : (setOf known.eraseDups).isEmpty = false := by
    obtain ⟨x, hx⟩ := List.exists_mem_of_ne_nil known hne
    rw [Bool.eq_false_iff, ne_eq, isEmpty_setOf_iff]
    exact List.ne_nil_of_mem (List.mem_eraseDups.mpr hx)
  rw [ofKnown, collect_empty, hall, hsome, ← List.mem_eraseDups, ← contains_setOf]
  simp [wants]

/-- A set is put together again from its hashes. -/
theorem setOf_keys (s : HashSet) : setOf s.keys = s := by
  have hkeys : s.keys.map (·, ()) = s.entries := by
    rw [SortedMap.keys, List.map_map]
    exact List.map_id s.entries
  rw [setOf, hkeys, SortedMap.ofList_entries]

theorem ofRaw_self {d : Declaration} (hs : d.Sound) : ofRaw d.optOut d.hashes.keys = d := by
  obtain ⟨optOut, hashes⟩ := d
  cases optOut with
  | true => rw [show hashes = .empty from hs rfl]; rfl
  | false => simp [ofRaw, ofHashes, setOf_keys]

theorem reads_encode {d : Declaration} (hs : d.Sound) (hsize : d.encode.size < UInt64.size) :
    decoder.Reads d.encode d := by
  have hcount : d.hashes.keys.length < UInt64.size := by
    simp only [encode, Record.hashes, ByteArray.size_append, Header.size_concat_hashes] at hsize
    omega
  refine (Record.Decoder.reads_flag _).bind ?_
  exact (Record.Decoder.reads_hashes hcount).bind_pure (by rw [ofRaw_self hs])

end Declaration

theorem Packet.faithful_declare {d : Declaration} (hs : d.Sound) : (Packet.declare d).Faithful := by
  intro hsize
  have hrun := (Declaration.reads_encode hs (lt_size_of_le_maxLength hsize)).run_eq
  simp only [ofPayload, type, payload, hrun, mapError_ok, bind, Except.bind]
  rfl

end ChunkRelay
