import ChunkRelay.Path

/-! Names put behind a path. The walk along the longer path is the walk along the path and then one step
to the name. -/
namespace ChunkRelay
namespace Path

theorem not_mem_of_mem_splitChars {l w : List Char} (h : w ∈ splitChars l) : '/' ∉ w := by
  induction l generalizing w with
  | nil =>
    rw [splitChars, List.mem_singleton] at h
    rw [h]
    exact List.not_mem_nil
  | cons c r ih =>
    rw [splitChars] at h
    split at h
    · rcases List.mem_cons.mp h with rfl | h
      · exact List.not_mem_nil
      · exact ih h
    · rename_i hc
      split at h
      · rw [List.mem_singleton.mp h, List.mem_singleton]
        exact fun he => hc he.symm
      · rename_i v vs hr
        rcases List.mem_cons.mp h with rfl | h
        · rw [List.mem_cons]
          rintro (he | hv)
          · exact hc he.symm
          · exact ih (hr ▸ List.mem_cons_self) hv
        · exact ih (hr ▸ List.mem_cons_of_mem _ h)

theorem splitChars_ne_nil (l : List Char) : splitChars l ≠ [] := by
  cases l with
  | nil => exact List.cons_ne_nil _ _
  | cons c r =>
    rw [splitChars]
    split
    · exact List.cons_ne_nil _ _
    · split <;> exact List.cons_ne_nil _ _

theorem splitChars_append_slash (l r : List Char) :
    splitChars (l ++ '/' :: r) = splitChars l ++ splitChars r := by
  induction l with
  | nil => simp [splitChars]
  | cons c l ih =>
    rw [List.cons_append, splitChars, splitChars, ih]
    split
    · rw [List.cons_append]
    · cases hl : splitChars l with
      | nil => exact absurd hl (splitChars_ne_nil l)
      | cons v vs => rfl

theorem splitChars_of_not_mem {l : List Char} (h : '/' ∉ l) : splitChars l = [l] := by
  induction l with
  | nil => rfl
  | cons c l ih =>
    rw [List.mem_cons, not_or] at h
    rw [splitChars, if_neg fun hc => h.1 hc.symm, ih h.2]

/-- A name that can stand between slashes. -/
structure Plain (w : String) : Prop where
  ne_empty : w ≠ ""
  no_slash : '/' ∉ w.toList

instance (w : String) : Decidable (Plain w) :=
  decidable_of_iff (w ≠ "" ∧ '/' ∉ w.toList) ⟨fun h => ⟨h.1, h.2⟩, fun h => ⟨h.ne_empty, h.no_slash⟩⟩

theorem Plain.toList_ne {w : String} (hw : Plain w) : w.toList ≠ [] :=
  fun h => hw.ne_empty (String.toList_eq_nil_iff.mp h)

theorem pieces_of_no_slash {w : String} (hw : '/' ∉ w.toList) : pieces w = [w] := by
  rw [pieces, splitChars_of_not_mem hw, List.map_singleton, String.ofList_toList]

theorem isAbsolute_iff {p : String} : isAbsolute p = true ↔ ['/'] <+: p.toList :=
  String.startsWith_string_iff

theorem endsWith_slash_iff {p : String} : p.endsWith "/" = true ↔ ['/'] <:+ p.toList := by
  rw [← String.endsWith_toSlice, String.Slice.endsWith_string_iff, String.copy_toSlice]
  rfl

/-- A name is joined to a path behind a slash, which the path may end in already. -/
theorem toList_join {c w : String} (hw : Plain w) :
    (c = "" ∧ join c w = w) ∨
      c ≠ "" ∧ ∃ l, (join c w).toList = l ++ '/' :: w.toList ∧ (c.toList = l ∨ c.toList = l ++ ['/']) := by
  have hrelative : isAbsolute w = false := by
    rw [Bool.eq_false_iff, Ne, isAbsolute_iff]
    rintro ⟨t, ht⟩
    exact hw.no_slash (by rw [← ht]; exact List.mem_cons_self)
  by_cases hc : c = ""
  · exact .inl ⟨hc, by simp [join, hrelative, hc]⟩
  · refine .inr ⟨hc, ?_⟩
    by_cases hend : c.endsWith "/"
    · obtain ⟨l, hl⟩ := endsWith_slash_iff.mp hend
      refine ⟨l, ?_, .inr hl.symm⟩
      rw [join, hrelative]
      simp [hend, ← hl]
    · refine ⟨c.toList, ?_, .inl rfl⟩
      rw [join, hrelative]
      simp [hend, hc]

theorem steps_join {c w : String} (hw : Plain w) : steps (join c w) = steps c ++ [w] := by
  have hlast : [w].filter (· ≠ "") = [w] := by simp [hw.ne_empty]
  rcases toList_join (c := c) hw with ⟨rfl, hj⟩ | ⟨hne, l, hj, hc⟩
  · rw [hj, steps, pieces_of_no_slash hw.no_slash, hlast]
    rfl
  · have hjoin : steps (join c w) = ((splitChars l).map String.ofList).filter (· ≠ "") ++ [w] := by
      rw [steps, pieces, hj, splitChars_append_slash, splitChars_of_not_mem hw.no_slash, List.map_append,
        List.filter_append, List.map_singleton, String.ofList_toList, hlast]
    have hsteps : steps c = ((splitChars l).map String.ofList).filter (· ≠ "") := by
      rcases hc with hc | hc
      · rw [steps, pieces, hc]
      · rw [steps, pieces, hc, splitChars_append_slash, List.map_append, List.filter_append]
        simp [splitChars]
    rw [hjoin, hsteps]

theorem join_ne_empty {w : String} (hw : Plain w) (c : String) : join c w ≠ "" := by
  intro he
  have hsteps := steps_join (c := c) hw
  rw [he] at hsteps
  simp [steps, pieces, splitChars] at hsteps

theorem not_mem_join {c w : String} (hw : Plain w) {x : Char} (hx : x ≠ '/') (hc : x ∉ c.toList) (hxw : x ∉ w.toList) :
    x ∉ (join c w).toList := by
  rcases toList_join (c := c) hw with ⟨-, hj⟩ | ⟨-, l, hj, hl⟩
  · rwa [hj]
  · have hxl : x ∉ l := by
      rcases hl with hl | hl
      · rwa [hl] at hc
      · rw [hl] at hc
        exact fun hmem => hc (List.mem_append_left _ hmem)
    rw [hj, List.mem_append, List.mem_cons]
    rintro (hmem | rfl | hmem)
    · exact hxl hmem
    · exact hx rfl
    · exact hxw hmem

theorem isAbsolute_join {c w : String} (hw : Plain w) : isAbsolute (join c w) = isAbsolute c := by
  rw [Bool.eq_iff_iff, isAbsolute_iff, isAbsolute_iff]
  rcases toList_join (c := c) hw with ⟨rfl, hj⟩ | ⟨hne, l, hj, hc⟩
  · rw [hj]
    constructor
    · rintro ⟨t, ht⟩
      exact absurd (ht ▸ List.mem_cons_self) hw.no_slash
    · intro h
      exact absurd h.length_le (Nat.not_succ_le_zero 0)
  · cases l with
    | nil =>
      rcases hc with hc | hc
      · exact absurd (String.toList_eq_nil_iff.mp hc) hne
      · rw [hj, hc]
        simp
    | cons x l => rcases hc with hc | hc <;> rw [hj, hc] <;> simp

/-- Names are read off the pieces of a path: the root or the first piece stays, blank pieces behind it do not count. -/
theorem names_of_pieces {p v : String} {vs : List String} (h : pieces p = v :: vs) :
    names p = (if isAbsolute p then ["/"] else if v = "" then [] else [v]) ++ vs.filter fun u => !isBlank u := by
  rw [names, h]
  simp only
  split
  · rfl
  · split <;> rfl

/-- A name put behind a path comes behind the names of the path. -/
theorem names_join {c w : String} (hw : Plain w) (hdot : w ≠ ".") : names (join c w) = names c ++ [w] := by
  have hblank : isBlank w = false := by simp [isBlank, hw.ne_empty, hdot]
  rcases toList_join (c := c) hw with ⟨rfl, hj⟩ | ⟨hne, l, hj, hc⟩
  · have hrelative : isAbsolute (join "" w) = false := by
      rw [isAbsolute_join hw, Bool.eq_false_iff, Ne, isAbsolute_iff]
      exact fun h => absurd h.length_le (Nat.not_succ_le_zero 0)
    have hnone : names "" = [] := by decide
    rw [hj] at hrelative ⊢
    rw [names_of_pieces (pieces_of_no_slash hw.no_slash), hnone, hrelative]
    simp [hw.ne_empty]
  · cases hl : splitChars l with
    | nil => exact absurd hl (splitChars_ne_nil l)
    | cons v vs =>
      have hjoin : pieces (join c w) = String.ofList v :: (vs.map String.ofList ++ [w]) := by
        rw [pieces, hj, splitChars_append_slash, splitChars_of_not_mem hw.no_slash, hl]
        simp
      have hpath : ∃ blanks, pieces c = String.ofList v :: (vs.map String.ofList ++ blanks) ∧
          blanks.filter (fun u => !isBlank u) = [] := by
        rcases hc with hc | hc
        · exact ⟨[], by simp [pieces, hc, hl], rfl⟩
        · exact ⟨[""], by rw [pieces, hc, splitChars_append_slash, hl]; simp [splitChars], rfl⟩
      obtain ⟨blanks, hpath, hnone⟩ := hpath
      rw [names_of_pieces hjoin, names_of_pieces hpath, isAbsolute_join hw]
      simp [hblank, hnone]

theorem not_endsWith_join {c w : String} (hw : Plain w) : (join c w).endsWith "/" = false := by
  have hmem : ∃ l, (join c w).toList = l ++ w.toList := by
    rcases toList_join (c := c) hw with ⟨rfl, hj⟩ | ⟨hne, l, hj, hc⟩
    · exact ⟨[], by rw [hj, List.nil_append]⟩
    · exact ⟨l ++ ['/'], by rw [hj, List.append_assoc, List.singleton_append]⟩
  obtain ⟨l, hl⟩ := hmem
  rw [Bool.eq_false_iff, Ne, endsWith_slash_iff, hl]
  intro h
  have hlast := List.singleton_suffix_iff_getLast?_eq_some.mp h
  rw [List.getLast?_append, List.getLast?_eq_some_getLast hw.toList_ne, Option.some_or,
    ← List.getLast?_eq_some_getLast] at hlast
  exact hw.no_slash (List.mem_of_getLast? hlast)

theorem trim_sublist (l : List String) : (trim l).Sublist l := by
  fun_induction trim l with
  | case1 => exact .slnil
  | case2 first => exact .refl _
  | case3 w r _ _ ih => exact .cons w ih
  | case4 w r _ _ => exact .refl _

theorem plain_of_fileName? {p w : String} (h : fileName? p = some w) : Plain w := by
  unfold fileName? at h
  split at h
  · cases h
  · rename_i v r ht
    split at h
    · cases h
    · rename_i hblank
      cases h
      have hmem : w ∈ pieces p := by
        have htrim : w ∈ trim (pieces p).reverse := by
          rw [← trimmed, ht]
          exact List.mem_cons_self
        exact List.mem_reverse.mp ((trim_sublist _).subset htrim)
      obtain ⟨l, hl, rfl⟩ := List.mem_map.mp hmem
      refine ⟨?_, ?_⟩
      · intro he
        simp [he, isBlank] at hblank
      · rw [String.toList_ofList]
        exact not_mem_of_mem_splitChars hl

theorem join_empty {w : String} (hw : Plain w) : join "" w = w := by
  rcases toList_join (c := "") hw with ⟨-, hj⟩ | ⟨hne, -⟩
  · exact hj
  · exact absurd rfl hne

/-- A name alone is the last name of its path, and nothing stands before it. -/
theorem withFileName_of_plain {w : String} (hw : Plain w) (hdot : w ≠ ".") (hup : w ≠ "..") (name : String) :
    fileName? w = some w ∧ withFileName w name = join "" name := by
  have htrimmed : trimmed w = [w] := by
    rw [trimmed, pieces_of_no_slash hw.no_slash]
    rfl
  have hname : fileName? w = some w := by simp [fileName?, htrimmed, isBlank, hw.ne_empty, hdot, hup]
  have hparent : parent? w = some "" := by simp [parent?, htrimmed, hw.ne_empty]
  refine ⟨hname, ?_⟩
  rw [withFileName, hname, hparent]
  rfl

/-- In the directory that is worked in, written as a dot, a name stands behind the dot. -/
theorem join_dot {w : String} (hw : Plain w) : join "." w = "./" ++ w := by
  rcases toList_join (c := ".") hw with ⟨hc, -⟩ | ⟨-, l, hj, hc | hc⟩
  · exact absurd hc (by decide)
  · refine String.toList_inj.mp ?_
    rw [hj, ← hc, String.toList_append]
    rfl
  · exact absurd (congrArg List.getLast? hc) (by simp)

theorem withFileName_join_dot {w : String} (hw : Plain w) (hdot : w ≠ ".") (hup : w ≠ "..") (name : String) :
    fileName? (join "." w) = some w ∧ withFileName (join "." w) name = join "." name := by
  have hpieces : pieces (join "." w) = [".", w] := by
    have hlist : (join "." w).toList = ['.'] ++ '/' :: w.toList := by rw [join_dot hw, String.toList_append]; rfl
    rw [pieces, hlist, splitChars_append_slash, splitChars_of_not_mem hw.no_slash]
    simp [splitChars]
  have hrelative : isAbsolute (join "." w) = false := by
    rw [isAbsolute_join hw, Bool.eq_false_iff, Ne, isAbsolute_iff]
    decide
  have htrimmed : trimmed (join "." w) = [w, "."] := by
    simp [trimmed, hpieces, trim, isBlank, hw.ne_empty, hdot]
  have hname : fileName? (join "." w) = some w := by simp [fileName?, htrimmed, isBlank, hw.ne_empty, hdot, hup]
  have hparent : parent? (join "." w) = some "." := by simp [parent?, htrimmed, trim, ofReversed, hrelative]
  refine ⟨hname, ?_⟩
  rw [withFileName, hname, hparent]
  rfl

/-- A path with another last name is that name put behind some path. -/
theorem exists_join_eq_withFileName (p name : String) : ∃ c, withFileName p name = join c name := by
  unfold withFileName
  split
  · exact ⟨_, rfl⟩
  · exact ⟨_, rfl⟩

/-- What `trim` takes off is blank. -/
theorem exists_append_trim (l : List String) : ∃ blanks, l = blanks ++ trim l ∧ ∀ v ∈ blanks, isBlank v = true := by
  fun_induction trim l with
  | case1 => exact ⟨[], rfl, nofun⟩
  | case2 first => exact ⟨[], rfl, nofun⟩
  | case3 w r hr hblank ih =>
    obtain ⟨blanks, hl, hall⟩ := ih
    refine ⟨w :: blanks, congrArg (w :: ·) hl, fun v hv => ?_⟩
    rcases List.mem_cons.mp hv with rfl | hv
    · exact hblank
    · exact hall v hv
  | case4 w r hr hblank => exact ⟨[], rfl, nofun⟩

theorem fileName?_eq_some {path w : String} (h : fileName? path = some w) :
    isBlank w = false ∧ w ≠ ".." ∧ ∃ r, trimmed path = w :: r := by
  unfold fileName? at h
  split at h
  · cases h
  · rename_i v r ht
    split at h
    · cases h
    · rename_i hname
      cases h
      simp only [Bool.or_eq_true, decide_eq_true_eq, not_or] at hname
      exact ⟨by simpa using hname.1, hname.2, r, ht⟩

/-- Behind the last name of a path no steps but dots follow. -/
theorem steps_of_fileName? {path w : String} (h : fileName? path = some w) :
    ∃ before dots, steps path = before ++ w :: dots ∧ ∀ v ∈ dots, v = "." := by
  obtain ⟨hw, -, r, ht⟩ := fileName?_eq_some h
  obtain ⟨blanks, hl, hall⟩ := exists_append_trim (pieces path).reverse
  rw [← trimmed, ht] at hl
  have hpieces : pieces path = r.reverse ++ w :: blanks.reverse := by
    rw [← List.reverse_reverse (pieces path), hl]
    simp
  have hempty : w ≠ "" := by
    rintro rfl
    cases hw
  refine ⟨r.reverse.filter (· ≠ ""), blanks.reverse.filter (· ≠ ""), by simp [steps, hpieces, hempty], fun v hv => ?_⟩
  obtain ⟨hmem, hne⟩ := List.mem_filter.mp hv
  have hblank := hall v (List.mem_reverse.mp hmem)
  simpa [isBlank, of_decide_eq_true hne] using hblank

/-- Without a last name there is no extension to set. -/
theorem withExtension_of_no_name {path : String} (h : fileName? path = none) (ext : String) :
    withExtension path ext = path := by
  have hextension : extension? path = none := by rw [extension?, h]; rfl
  have hwhole : String.ofList (path.toList.take (path.length - "".length)) = path := by
    rw [← String.length_toList, String.length_empty, Nat.sub_zero, List.take_length, String.ofList_toList]
  simp only [withExtension, hextension, Option.getD_none, hwhole, setExtension, h]

end Path
end ChunkRelay
