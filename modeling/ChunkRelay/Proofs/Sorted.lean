import ChunkRelay.Packet.Declare
import ChunkRelay.Place

/-! Sorted maps by their entries. Each operation is known by which entries it leaves, and a map is known
by the entries that it has. -/
namespace ChunkRelay
namespace SortedMap

variable {κ ν : Type} [LT κ]

section Lists

variable [DecidableLT κ]

/-- A key above all the others goes last. -/
theorem insertEntry_of_forall_lt {k : κ} {l : List (κ × ν)} (h : ∀ a ∈ l, a.1 < k) (v : ν) :
    insertEntry k v l = l ++ [(k, v)] := by
  induction l with
  | nil => rfl
  | cons a l ih =>
    have hlast := ih fun b hb => h b (List.mem_cons_of_mem a hb)
    rw [insertEntry, if_pos (h a List.mem_cons_self), hlast, List.cons_append]

variable [Trans (α := κ) (· < ·) (· < ·) (· < ·)]

theorem foldl_insert_entries {m : SortedMap κ ν} {l : List (κ × ν)}
    (h : (m.entries ++ l).Pairwise fun a b => a.1 < b.1) :
    (l.foldl (fun m a => m.insert a.1 a.2) m).entries = m.entries ++ l := by
  induction l generalizing m with
  | nil => simp
  | cons a l ih =>
    have hlast : (m.insert a.1 a.2).entries = m.entries ++ [a] :=
      insertEntry_of_forall_lt (fun b hb => (List.pairwise_append.mp h).2.2 b hb a List.mem_cons_self) a.2
    have hsplit : m.entries ++ a :: l = (m.insert a.1 a.2).entries ++ l := by simp [hlast]
    rw [List.foldl_cons, ih (hsplit ▸ h), hsplit]

/-- A map is put together again from its entries. -/
theorem ofList_entries (m : SortedMap κ ν) : ofList m.entries = m :=
  ext (foldl_insert_entries (m := empty) m.sorted)

end Lists

section Order

variable [Std.Irrefl (α := κ) (· < ·)]

theorem eq_of_key_eq {m : SortedMap κ ν} {a b : κ × ν} (ha : a ∈ m.entries) (hb : b ∈ m.entries)
    (h : a.1 = b.1) : a = b := by
  have hs := m.sorted
  generalize m.entries = l at ha hb hs
  induction l with
  | nil => cases ha
  | cons c l ih =>
    obtain ⟨hc, hl⟩ := List.pairwise_cons.mp hs
    rcases List.mem_cons.mp ha with rfl | ha' <;> rcases List.mem_cons.mp hb with rfl | hb'
    · rfl
    · exact absurd (h ▸ hc b hb') (Std.Irrefl.irrefl _)
    · exact absurd (h ▸ hc a ha') (Std.Irrefl.irrefl _)
    · exact ih ha' hb' hl

theorem get?_eq_some_iff [DecidableEq κ] {m : SortedMap κ ν} {k : κ} {v : ν} :
    m.get? k = some v ↔ (k, v) ∈ m.entries := by
  constructor
  · intro h
    obtain ⟨a, ha, rfl⟩ := Option.map_eq_some_iff.mp h
    have hk : a.1 = k := by simpa using List.find?_some ha
    rw [← hk]
    exact List.mem_of_find?_eq_some ha
  · intro h
    have hfound : (m.entries.find? fun a => a.1 = k).isSome := by
      rw [List.find?_isSome]
      exact ⟨(k, v), h, by simp⟩
    obtain ⟨a, ha⟩ := Option.isSome_iff_exists.mp hfound
    have hk : a.1 = k := by simpa using List.find?_some ha
    have hav : a = (k, v) := eq_of_key_eq (List.mem_of_find?_eq_some ha) h hk
    rw [get?, ha, hav]
    rfl

theorem mem_keys_iff [DecidableEq κ] {m : SortedMap κ ν} {k : κ} : k ∈ m.keys ↔ (m.get? k).isSome := by
  rw [keys, List.mem_map, Option.isSome_iff_exists]
  constructor
  · rintro ⟨⟨k, v⟩, hmem, rfl⟩
    exact ⟨v, get?_eq_some_iff.mpr hmem⟩
  · rintro ⟨v, hv⟩
    exact ⟨(k, v), get?_eq_some_iff.mp hv, rfl⟩

variable [Trans (α := κ) (· < ·) (· < ·) (· < ·)]

theorem ext_mem {m n : SortedMap κ ν} (h : ∀ a, a ∈ m.entries ↔ a ∈ n.entries) : m = n := by
  apply ext
  have hm := m.sorted
  have hn := n.sorted
  generalize m.entries = l at h hm
  generalize n.entries = l' at h hn
  induction l generalizing l' with
  | nil =>
    cases l' with
    | nil => rfl
    | cons b r => exact absurd ((h b).mpr List.mem_cons_self) List.not_mem_nil
  | cons a l ih =>
    cases l' with
    | nil => exact absurd ((h a).mp List.mem_cons_self) List.not_mem_nil
    | cons b r =>
      obtain ⟨ha, hl⟩ := List.pairwise_cons.mp hm
      obtain ⟨hb, hr⟩ := List.pairwise_cons.mp hn
      have hab : a = b := by
        rcases List.mem_cons.mp ((h a).mp List.mem_cons_self) with hab | har
        · exact hab
        · rcases List.mem_cons.mp ((h b).mpr List.mem_cons_self) with hba | hbl
          · exact hba.symm
          · exact absurd (Trans.trans (ha b hbl) (hb a har) : a.1 < a.1) (Std.Irrefl.irrefl _)
      subst hab
      have hrest : l = r := by
        refine ih hl r (fun c => ?_) hr
        have hc := h c
        simp only [List.mem_cons] at hc
        constructor
        · intro hcl
          refine (hc.mp (.inr hcl)).resolve_left fun he => ?_
          exact absurd (he ▸ ha c hcl) (Std.Irrefl.irrefl _)
        · intro hcr
          refine (hc.mpr (.inr hcr)).resolve_left fun he => ?_
          exact absurd (he ▸ hb c hcr) (Std.Irrefl.irrefl _)
      rw [hrest]

theorem ext_get? [DecidableEq κ] {m n : SortedMap κ ν} (h : ∀ k, m.get? k = n.get? k) : m = n := by
  refine ext_mem fun a => ?_
  obtain ⟨k, v⟩ := a
  rw [← get?_eq_some_iff, ← get?_eq_some_iff, h]

/-! Operations. -/

variable [DecidableLT κ] [Std.Trichotomous (α := κ) (· < ·)]

theorem mem_insertEntry_iff {k : κ} {v : ν} {l : List (κ × ν)} (hl : l.Pairwise fun a b => a.1 < b.1)
    {a : κ × ν} : a ∈ insertEntry k v l ↔ a = (k, v) ∨ a ∈ l ∧ a.1 ≠ k := by
  induction l with
  | nil => simp [insertEntry]
  | cons b r ih =>
    obtain ⟨k', v'⟩ := b
    obtain ⟨hb, hr⟩ := List.pairwise_cons.mp hl
    have hne {x y : κ} (h : x < y) : x ≠ y := fun he => Std.Irrefl.irrefl _ (he ▸ h)
    simp only [insertEntry]
    split
    · rename_i hlt
      rw [List.mem_cons, ih hr, List.mem_cons]
      constructor
      · rintro (rfl | rfl | ⟨ha, hk⟩)
        · exact .inr ⟨.inl rfl, hne hlt⟩
        · exact .inl rfl
        · exact .inr ⟨.inr ha, hk⟩
      · rintro (rfl | ⟨rfl | ha, hk⟩)
        · exact .inr (.inl rfl)
        · exact .inl rfl
        · exact .inr (.inr ⟨ha, hk⟩)
    · split
      · rename_i hlt
        rw [List.mem_cons]
        refine or_congr_right ⟨fun ha => ⟨ha, ?_⟩, And.left⟩
        rcases List.mem_cons.mp ha with rfl | ha
        · exact (hne hlt).symm
        · exact (hne (Trans.trans hlt (hb a ha) : k < a.1)).symm
      · rename_i hge hle
        have hk : k' = k := Std.Trichotomous.trichotomous k' k hge hle
        subst hk
        rw [List.mem_cons, List.mem_cons]
        constructor
        · rintro (rfl | ha)
          · exact .inl rfl
          · exact .inr ⟨.inr ha, (hne (hb a ha)).symm⟩
        · rintro (rfl | ⟨rfl | ha, hk⟩)
          · exact .inl rfl
          · exact absurd rfl hk
          · exact .inr ha

variable [DecidableEq κ]

theorem get?_insert (m : SortedMap κ ν) (k : κ) (v : ν) (k' : κ) :
    (m.insert k v).get? k' = if k' = k then some v else m.get? k' := by
  apply Option.ext
  intro w
  rw [get?_eq_some_iff, insert, mem_insertEntry_iff m.sorted]
  by_cases hk : k' = k
  · simp [hk, eq_comm]
  · simp [hk, get?_eq_some_iff]

/-- A new key makes one more entry. -/
theorem perm_insert {m : SortedMap κ ν} {k : κ} (h : m.get? k = none) (v : ν) :
    (m.insert k v).entries.Perm ((k, v) :: m.entries) := by
  have hne : ∀ a ∈ m.entries, a.1 ≠ k := by
    rintro ⟨k', w⟩ ha rfl
    rw [get?_eq_some_iff.mpr ha] at h
    cases h
  simp only [insert]
  generalize m.entries = l at hne
  induction l with
  | nil => exact .refl _
  | cons b r ih =>
    obtain ⟨k', w⟩ := b
    simp only [insertEntry]
    split
    · exact ((ih fun a ha => hne a (List.mem_cons_of_mem _ ha)).cons _).trans (.swap _ _ _)
    · split
      · exact .refl _
      · rename_i hge hle
        exact absurd (Std.Trichotomous.trichotomous k' k hge hle) (hne (k', w) List.mem_cons_self)

/-- A value that a key has already changes nothing. -/
theorem insert_of_get? {m : SortedMap κ ν} {k : κ} {v : ν} (h : m.get? k = some v) : m.insert k v = m := by
  refine ext_get? fun k' => ?_
  rw [get?_insert]
  split
  · rename_i hk
    rw [hk, h]
  · rfl

omit [Std.Trichotomous (α := κ) (· < ·)] in
/-- A key that has a value keeps its place when it gets another. -/
theorem exists_insert_of_get? {m : SortedMap κ ν} {k : κ} {v : ν} (h : m.get? k = some v) (w : ν) :
    ∃ pre post, m.entries = pre ++ (k, v) :: post ∧ (m.insert k w).entries = pre ++ (k, w) :: post := by
  have hmem := get?_eq_some_iff.mp h
  have hs := m.sorted
  simp only [insert]
  generalize m.entries = l at hmem hs
  induction l with
  | nil => cases hmem
  | cons a l ih =>
    obtain ⟨k', v'⟩ := a
    obtain ⟨ha, hl⟩ := List.pairwise_cons.mp hs
    rcases List.mem_cons.mp hmem with he | hmem
    · obtain ⟨rfl, rfl⟩ := Prod.mk.inj he
      have hk : ¬ k < k := Std.Irrefl.irrefl k
      exact ⟨[], l, rfl, by rw [insertEntry, if_neg hk, if_neg hk]; rfl⟩
    · obtain ⟨pre, post, rfl, hinsert⟩ := ih hmem hl
      exact ⟨(k', v') :: pre, post, rfl, by rw [insertEntry, if_pos (ha _ hmem), hinsert]; rfl⟩

section Erase

omit [Std.Trichotomous (α := κ) (· < ·)] [DecidableLT κ] [Trans (α := κ) (· < ·) (· < ·) (· < ·)]

theorem get?_erase (m : SortedMap κ ν) (k k' : κ) :
    (m.erase k).get? k' = if k' = k then none else m.get? k' := by
  apply Option.ext
  intro w
  rw [get?_eq_some_iff, erase, List.mem_filter]
  by_cases hk : k' = k
  · simp [hk]
  · simp [hk, get?_eq_some_iff]

end Erase

omit [Std.Trichotomous (α := κ) (· < ·)] [DecidableLT κ] in
/-- A key that has no value takes nothing with it. -/
theorem erase_of_get? {m : SortedMap κ ν} {k : κ} (h : m.get? k = none) : m.erase k = m := by
  refine ext_get? fun k' => ?_
  rw [get?_erase]
  split
  · rename_i hk
    rw [hk, h]
  · rfl

theorem insert_erase {m : SortedMap κ ν} {k : κ} {v : ν} (h : m.get? k = some v) : (m.erase k).insert k v = m := by
  refine ext_get? fun k' => ?_
  rw [get?_insert, get?_erase]
  split
  · rename_i hk
    rw [hk, h]
  · rfl

omit [Std.Trichotomous (α := κ) (· < ·)] [DecidableLT κ] [Trans (α := κ) (· < ·) (· < ·) (· < ·)]

theorem get?_modify (m : SortedMap κ ν) (k : κ) (f : ν → ν) (k' : κ) :
    (m.modify k f).get? k' = if k' = k then (m.get? k).map f else m.get? k' := by
  apply Option.ext
  intro w
  rw [get?_eq_some_iff, modify, List.mem_map]
  by_cases hk : k' = k
  · subst hk
    rw [if_pos rfl, Option.map_eq_some_iff]
    constructor
    · rintro ⟨⟨k, v⟩, ha, hc⟩
      have hk : k = k' := by simpa using congrArg Prod.fst hc
      subst hk
      exact ⟨v, get?_eq_some_iff.mpr ha, by simpa [change] using hc⟩
    · rintro ⟨v, hv, rfl⟩
      exact ⟨(k', v), get?_eq_some_iff.mp hv, by simp [change]⟩
  · rw [if_neg hk, get?_eq_some_iff]
    constructor
    · rintro ⟨⟨k'', v⟩, ha, hc⟩
      have hk' : k'' = k' := by simpa using congrArg Prod.fst hc
      subst hk'
      simp only [change, hk, if_false] at hc
      rw [← hc]
      exact ha
    · intro ha
      exact ⟨(k', w), ha, by simp [change, hk]⟩

theorem contains_eq (m : SortedMap κ ν) (k : κ) : m.contains k = (m.get? k).isSome := by
  rw [Bool.eq_iff_iff, contains, List.any_eq_true, Option.isSome_iff_exists]
  constructor
  · rintro ⟨⟨k', v⟩, ha, hk⟩
    have hk' : k' = k := by simpa using hk
    exact ⟨v, get?_eq_some_iff.mpr (hk' ▸ ha)⟩
  · rintro ⟨v, hv⟩
    exact ⟨(k, v), get?_eq_some_iff.mp hv, by simp⟩

end Order

variable [DecidableEq κ]

theorem modify_modify (m : SortedMap κ ν) (k : κ) (f g : ν → ν) :
    (m.modify k f).modify k g = m.modify k fun v => g (f v) := by
  apply ext
  simp only [modify, List.map_map]
  apply List.map_congr_left
  intro a _
  by_cases ha : a.1 = k <;> simp [change, ha]

theorem modify_self (m : SortedMap κ ν) (k : κ) : m.modify k (fun v => v) = m := by
  apply ext
  have hid : (change k fun v : ν => v) = id := by
    funext a
    simp [change]
  simp [modify, hid]

end SortedMap

/-! The orders of hashes and of places. -/

instance Hash.ltIrrefl : Std.Irrefl (α := Hash) (· < ·) := ⟨fun a => List.lt_irrefl a.bytes.data.toList⟩

instance Hash.ltTrichotomous : Std.Trichotomous (α := Hash) (· < ·) where
  trichotomous a b hab hba := by
    have h : a.bytes.data.toList = b.bytes.data.toList := List.le_antisymm hba hab
    exact Hash.ext (ByteArray.ext (Array.toList_inj.mp h))

instance Place.ltIrrefl : Std.Irrefl (α := Place) (· < ·) where
  irrefl a h := by
    rcases h with h | h
    · exact Nat.lt_irrefl _ h
    · exact List.lt_irrefl a.names.toList h.2

instance Place.ltTrichotomous : Std.Trichotomous (α := Place) (· < ·) where
  trichotomous a b hab hba := by
    have hdepth : a.depth = b.depth :=
      Nat.le_antisymm (Nat.le_of_not_lt fun h => hba (.inl h)) (Nat.le_of_not_lt fun h => hab (.inl h))
    have h : a.names.toList = b.names.toList :=
      List.le_antisymm (fun h => hba (.inr ⟨hdepth.symm, h⟩)) (fun h => hab (.inr ⟨hdepth, h⟩))
    exact Place.ext (Array.toList_inj.mp h)

end ChunkRelay
