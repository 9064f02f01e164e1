import ChunkRelay.Disk
import ChunkRelay.Proofs.Paths
import ChunkRelay.Proofs.Sorted

/-! File trees as files come and go. A walk passes directories only, so where files are put in or taken
out every path leads where it led before. -/
namespace ChunkRelay

theorem Place.child_ne_root (p : Place) (w : String) : p.child w ≠ .root := by
  intro h
  have hn := congrArg Place.name? h
  rw [name?_child] at hn
  cases hn

theorem Entry.append_append (e : Entry) (a b : Bytes) : (e.append a).append b = e.append (a ++ b) := by
  cases e <;> simp [append, ByteArray.append_assoc]

@[simp] theorem Entry.append_empty (e : Entry) : e.append ByteArray.empty = e := by
  cases e <;> simp [append]

namespace Disk

theorem entry?_child (d : Disk) (p : Place) (w : String) : d.entry? (p.child w) = d.entries.get? (p.child w) :=
  if_neg (p.child_ne_root w)

theorem entry?_set {q : Place} (hq : q ≠ .root) (d : Disk) (e : Entry) (p : Place) :
    entry? (d.set q e) p = if p = q then some e else d.entry? p := by
  by_cases hp : p = .root
  · have hne : ¬ p = q := fun h => hq (h ▸ hp)
    simp [Disk.entry?, hp, hp ▸ hne]
  · simp [Disk.entry?, hp, set, SortedMap.get?_insert]

/-- A tree with all directories of another one. -/
structure KeepsDirectories (d d' : Disk) : Prop where
  workDir_eq : d'.workDir = d.workDir
  directory : ∀ p, d.entry? p = some .directory → d'.entry? p = some .directory

/-- Two trees with the same directories. -/
structure SameDirectories (d d' : Disk) : Prop where
  workDir_eq : d'.workDir = d.workDir
  directory_iff : ∀ p, d.entry? p = some .directory ↔ d'.entry? p = some .directory

theorem SameDirectories.refl (d : Disk) : SameDirectories d d := ⟨rfl, fun _ => Iff.rfl⟩

theorem SameDirectories.symm {d d' : Disk} (h : SameDirectories d d') : SameDirectories d' d :=
  ⟨h.workDir_eq.symm, fun p => (h.directory_iff p).symm⟩

theorem SameDirectories.trans {d d' d'' : Disk} (h : SameDirectories d d') (h' : SameDirectories d' d'') :
    SameDirectories d d'' :=
  ⟨h'.workDir_eq.trans h.workDir_eq, fun p => (h.directory_iff p).trans (h'.directory_iff p)⟩

theorem SameDirectories.keeps {d d' : Disk} (h : SameDirectories d d') : KeepsDirectories d d' :=
  ⟨h.workDir_eq, fun p => (h.directory_iff p).mp⟩

theorem KeepsDirectories.trans {d d' d'' : Disk} (h : KeepsDirectories d d') (h' : KeepsDirectories d' d'') :
    KeepsDirectories d d'' :=
  ⟨h'.workDir_eq.trans h.workDir_eq, fun p hp => h'.directory p (h.directory p hp)⟩

theorem sameDirectories_set {d : Disk} {q : Place} (hq : q ≠ .root) (h : d.entry? q = none) (b : Bytes) (m : Nat) :
    SameDirectories d (d.set q (.file b m)) := by
  refine ⟨rfl, fun p => ?_⟩
  rw [entry?_set hq]
  by_cases hp : p = q
  · simp [hp, h]
  · simp [hp]

/-- Where no directory was, anything may be put. -/
theorem keepsDirectories_set {d : Disk} {q : Place} (hq : q ≠ .root) (h : d.entry? q ≠ some .directory) (e : Entry) :
    KeepsDirectories d (d.set q e) := by
  refine ⟨rfl, fun p hp => ?_⟩
  have hne : p ≠ q := by
    rintro rfl
    exact h hp
  rw [entry?_set hq, if_neg hne, hp]

variable {d d' : Disk}

theorem KeepsDirectories.walk_eq (h : KeepsDirectories d d') {p q : Place} {ws : List String}
    (hw : d.walk p ws = .ok q) : d'.walk p ws = .ok q := by
  induction ws generalizing p with
  | nil => exact hw
  | cons w ws ih =>
    rw [walk] at hw ⊢
    split at hw
    · rename_i hdot
      rw [if_pos hdot]
      exact ih hw
    · rename_i hdot
      rw [if_neg hdot]
      split at hw
      · rename_i hup
        rw [if_pos hup]
        exact ih hw
      · rename_i hup
        rw [if_neg hup]
        split at hw
        · cases hw
        · rename_i hlong
          rw [if_neg hlong]
          split at hw
          · cases hw
          · cases hw
          · rename_i he
            rw [h.directory _ he]
            exact ih hw

theorem KeepsDirectories.target_eq (h : KeepsDirectories d d') {path : String} {t : Target}
    (ht : d.target path = .ok t) : d'.target path = .ok t := by
  have hstart : d'.start path = d.start path := by rw [start, start, h.workDir_eq]
  simp only [target, hstart] at ht ⊢
  split at ht
  · cases ht
  · rename_i hzero
    rw [if_neg hzero]
    split at ht
    · cases ht
    · rename_i hempty
      rw [if_neg hempty]
      split at ht
      · cases ht
      · rename_i hlong
        rw [if_neg hlong]
        split at ht
        · exact ht
        · rename_i last before hs
          split at ht
          · cases ht
          · rename_i at_ hw
            simp only [h.walk_eq hw]
            exact ht

theorem resolve_eq_ok_iff {path : String} {t : Target} :
    d.resolve path = .ok t ↔ d.target path = .ok t ∧ t.isTooLong = false := by
  unfold resolve
  cases ht : d.target path with
  | error e => simp
  | ok u =>
    by_cases hu : u.isTooLong
    · simp only [hu, if_true, reduceCtorEq, Except.ok.injEq, false_iff, not_and]
      rintro rfl
      simp [hu]
    · simp only [hu, Bool.false_eq_true, if_false, Except.ok.injEq]
      constructor
      · rintro rfl
        exact ⟨rfl, by simpa using hu⟩
      · exact And.left

theorem KeepsDirectories.resolve_eq (h : KeepsDirectories d d') {path : String} {t : Target}
    (ht : d.resolve path = .ok t) : d'.resolve path = .ok t := by
  rw [resolve_eq_ok_iff] at ht ⊢
  exact ⟨h.target_eq ht.1, ht.2⟩

theorem SameDirectories.resolve_eq (h : SameDirectories d d') {path : String} {t : Target}
    (ht : d.resolve path = .ok t) : d'.resolve path = .ok t :=
  h.keeps.resolve_eq ht

theorem walk_ne_exists {p : Place} {ws : List String} : d.walk p ws ≠ .error .exists := by
  induction ws generalizing p with
  | nil => simp [walk]
  | cons w ws ih =>
    rw [walk]
    split
    · exact ih
    · split
      · exact ih
      · split
        · simp
        · split
          · simp
          · simp
          · exact ih

theorem resolve_ne_exists {path : String} : d.resolve path ≠ .error .exists := by
  have htarget : d.target path ≠ .error .exists := by
    unfold target
    split
    · simp
    · split
      · simp
      · split
        · simp
        · split
          · simp
          · rename_i last before _
            cases hw : d.walk (d.start path) before.reverse with
            | error e =>
              intro he
              cases he
              exact walk_ne_exists hw
            | ok at_ => simp
  unfold resolve
  cases ht : d.target path with
  | error e =>
    intro he
    cases he
    exact htarget ht
  | ok t =>
    simp only []
    split <;> simp

/-! Names in a directory. -/

/-- A path with a name behind it leads to that name in the place to which the path leads. -/
theorem target_join {c w : String} (hw : Path.Plain w) (hdot : w ≠ ".") (hup : w ≠ "..") {t : Target}
    (ht : d.target (Path.join c w) = .ok t) :
    ∃ p, d.walk (d.start c) (Path.steps c) = .ok p ∧ t = ⟨p.child w, true, false⟩ := by
  have hstart : d.start (Path.join c w) = d.start c := by rw [start, start, Path.isAbsolute_join hw]
  simp only [target, hstart, Path.steps_join hw, List.reverse_append, List.reverse_singleton,
    List.singleton_append, List.reverse_reverse, Path.not_endsWith_join hw] at ht
  split at ht
  · cases ht
  · split at ht
    · cases ht
    · split at ht
      · cases ht
      · split at ht
        · cases ht
        · rename_i p hp
          cases ht
          exact ⟨p, hp, by simp [lastTarget, hdot, hup]⟩

theorem no_zero_of_target {path : String} {t : Target} (ht : d.target path = .ok t) : '\x00' ∉ path.toList := by
  unfold target at ht
  split at ht
  · cases ht
  · rename_i hzero
    simpa using hzero

theorem walk_cons (d : Disk) (p : Place) (w : String) (ws : List String) :
    d.walk p (w :: ws) = (d.walk p [w]).bind fun q => d.walk q ws := by
  simp only [walk]
  split
  · rfl
  · split
    · rfl
    · split
      · rfl
      · split <;> rfl

theorem walk_append {p q : Place} {ws : List String} (h : d.walk p ws = .ok q) (vs : List String) :
    d.walk p (ws ++ vs) = d.walk q vs := by
  induction ws generalizing p with
  | nil =>
    cases h
    rfl
  | cons w ws ih =>
    rw [walk_cons] at h
    rw [List.cons_append, walk_cons]
    cases hw : d.walk p [w] with
    | error e => simp [hw, Except.bind] at h
    | ok r =>
      simp only [hw, Except.bind] at h ⊢
      exact ih h

/-- The walk to a directory by its last step. -/
theorem walk_lastTarget {p : Place} {w : String} {slash : Bool} (ht : (lastTarget p w slash).isTooLong = false)
    (hd : d.entry? (lastTarget p w slash).place = some .directory) :
    d.walk p [w] = .ok (lastTarget p w slash).place := by
  unfold lastTarget at ht hd ⊢
  by_cases hdot : w = "."
  · simp [walk, hdot]
  · by_cases hup : w = ".."
    · simp [walk, hup]
    · simp only [hdot, hup, if_false] at ht hd ⊢
      have hlong : ¬ w.utf8ByteSize > maxName := by simpa [Target.isTooLong] using ht
      simp [walk, hdot, hup, hlong, hd]

/-- Where a path leads to a directory, the walk along it ends there. -/
theorem walk_of_resolve {path : String} {t : Target} (ht : d.resolve path = .ok t)
    (hd : d.entry? t.place = some .directory) : d.walk (d.start path) (Path.steps path) = .ok t.place := by
  obtain ⟨ht, hlong⟩ := resolve_eq_ok_iff.mp ht
  unfold target at ht
  split at ht
  · cases ht
  · split at ht
    · cases ht
    · split at ht
      · cases ht
      · split at ht
        · rename_i hs
          cases ht
          rw [List.reverse_eq_nil_iff.mp hs]
          rfl
        · rename_i last before hs
          have hsteps : Path.steps path = before.reverse ++ [last] := by
            rw [← List.reverse_reverse (Path.steps path), hs, List.reverse_cons]
          split at ht
          · cases ht
          · rename_i p hp
            cases ht
            rw [hsteps, walk_append hp]
            exact walk_lastTarget hlong hd

theorem walk_dots {dots : List String} (h : ∀ v ∈ dots, v = ".") (p : Place) : d.walk p dots = .ok p := by
  induction dots with
  | nil => rfl
  | cons v dots ih =>
    rw [walk, if_pos (h v List.mem_cons_self)]
    exact ih fun u hu => h u (List.mem_cons_of_mem v hu)

/-- A walk that ends in a name, or in dots behind one, ends in a directory. -/
theorem directory_of_walk {p q : Place} {w : String} {before dots : List String} (hw : d.walk p (before ++ w :: dots) = .ok q) (hdot : w ≠ ".")
    (hup : w ≠ "..") (hdots : ∀ v ∈ dots, v = ".") : d.entry? q = some .directory := by
  induction before generalizing p with
  | nil =>
    rw [List.nil_append, walk, if_neg hdot, if_neg hup] at hw
    split at hw
    · cases hw
    · split at hw
      · cases hw
      · cases hw
      · rename_i he
        rw [walk_dots hdots] at hw
        cases hw
        exact he
  | cons v before ih =>
    rw [List.cons_append, walk_cons] at hw
    rcases hv : d.walk p [v] with x | r
    · rw [hv] at hw
      cases hw
    · rw [hv] at hw
      exact ih hw

/-- A path with a last name that leads to no directory ends in that name. -/
theorem named_of_fileName? {path w : String} {t : Target} (hname : Path.fileName? path = some w) (ht : d.resolve path = .ok t)
    (he : d.entry? t.place ≠ some .directory) : t.named = true := by
  obtain ⟨hblank, hup, -⟩ := Path.fileName?_eq_some hname
  obtain ⟨before, dots, hsteps, hdots⟩ := Path.steps_of_fileName? hname
  have hdot : w ≠ "." := by
    rintro rfl
    cases hblank
  have htarget := (resolve_eq_ok_iff.mp ht).1
  unfold target at htarget
  split at htarget
  · cases htarget
  split at htarget
  · cases htarget
  split at htarget
  · cases htarget
  rw [hsteps] at htarget
  rcases List.eq_nil_or_concat dots with rfl | ⟨dots, v, rfl⟩
  · rw [List.reverse_append, List.reverse_cons, List.reverse_nil, List.nil_append, List.singleton_append] at htarget
    simp only at htarget
    split at htarget
    · cases htarget
    · cases htarget
      simp [lastTarget, hdot, hup]
  · -- the last step is a dot, so the walk before it has ended in a directory
    obtain rfl : v = "." := hdots v (by simp)
    have hback : (before ++ w :: (dots ++ ["."])).reverse = "." :: (before ++ w :: dots).reverse := by simp
    simp only [List.concat_eq_append, hback, List.reverse_reverse] at htarget
    split at htarget
    · cases htarget
    · rename_i r hr
      cases htarget
      exact absurd (directory_of_walk hr hdot hup fun v hv => hdots v (by simp [hv])) he

theorem child_of_name? {p q : Place} {w : String} (hn : q.name? = some w) (hp : q.parent = p) : q = p.child w := by
  obtain ⟨names⟩ := q
  subst hp
  have hsome : names.back? = some w := hn
  have hsize : names.size ≠ 0 := by
    intro h0
    rw [Array.size_eq_zero_iff.mp h0] at hsome
    cases hsome
  obtain ⟨front, v, rfl⟩ := Array.eq_push_of_size_ne_zero hsize
  have hv : v = w := by simpa using hsome
  simp [Place.parent, Place.child, hv]

theorem mem_children {p : Place} {w : String} {e : Entry} :
    (w, e) ∈ d.children p ↔ d.entries.get? (p.child w) = some e := by
  rw [SortedMap.get?_eq_some_iff, children, List.mem_filterMap]
  constructor
  · rintro ⟨⟨q, e'⟩, hmem, hq⟩
    simp only at hq
    split at hq
    · rename_i name hname
      split at hq
      · rename_i hparent
        cases hq
        rw [← child_of_name? hname hparent]
        exact hmem
      · cases hq
    · cases hq
  · intro hmem
    exact ⟨_, hmem, by simp⟩

theorem list?_eq_some_iff {path : String} {l : List (String × Entry)} :
    d.list? path = some l ↔
      ∃ t, d.resolve path = .ok t ∧ d.entry? t.place = some .directory ∧ d.children t.place = l := by
  unfold list?
  cases d.resolve path with
  | error e => simp
  | ok t =>
    by_cases hd : d.entry? t.place = some .directory
    · simp [hd]
    · simp [hd]

/-- A dot leads to the working directory. -/
theorem resolve_dot (d : Disk) : d.resolve "." = .ok ⟨d.workDir, false, false⟩ := by
  have hzero : ".".contains '\x00' = false := by simp
  have hrelative : Path.isAbsolute "." = false := by
    rw [Bool.eq_false_iff, Ne, Path.isAbsolute_iff]
    decide
  have hslash : ".".endsWith "/" = false := by
    rw [Bool.eq_false_iff, Ne, Path.endsWith_slash_iff]
    decide
  have hsteps : Path.steps "." = ["."] := by decide
  have hshort : ¬ ".".utf8ByteSize > maxPath := by decide
  have htarget : d.target "." = .ok ⟨d.workDir, false, false⟩ := by
    simp [target, hzero, hshort, hsteps, start, hrelative, walk, lastTarget, hslash]
  exact resolve_eq_ok_iff.mpr ⟨htarget, rfl⟩

/-- A name for a new file in the working directory. -/
structure FreeName (d : Disk) (w : String) : Prop where
  plain : Path.Plain w
  ne_dot : w ≠ "."
  ne_up : w ≠ ".."
  no_zero : '\x00' ∉ w.toList
  short : w.utf8ByteSize ≤ maxName
  free : d.entry? (d.workDir.child w) = none

instance (d : Disk) (w : String) : Decidable (d.FreeName w) :=
  decidable_of_iff (Path.Plain w ∧ w ≠ "." ∧ w ≠ ".." ∧ '\x00' ∉ w.toList ∧ w.utf8ByteSize ≤ maxName ∧
      d.entry? (d.workDir.child w) = none)
    ⟨fun h => ⟨h.1, h.2.1, h.2.2.1, h.2.2.2.1, h.2.2.2.2.1, h.2.2.2.2.2⟩,
      fun h => ⟨h.plain, h.ne_dot, h.ne_up, h.no_zero, h.short, h.free⟩⟩

theorem FreeName.target_eq {w : String} (hw : d.FreeName w) : d.target w = .ok ⟨d.workDir.child w, true, false⟩ := by
  have hjoin := Path.join_empty hw.plain
  have hzero : w.contains '\x00' = false := by simpa using hw.no_zero
  have hrelative : Path.isAbsolute w = false := by
    rw [Bool.eq_false_iff, Ne, Path.isAbsolute_iff]
    rintro ⟨l, hl⟩
    exact hw.plain.no_slash (hl ▸ List.mem_cons_self)
  have hslash := Path.not_endsWith_join (c := "") hw.plain
  have hsteps := Path.steps_join (c := "") hw.plain
  rw [hjoin] at hslash hsteps
  have hpath : ¬ w.utf8ByteSize > maxPath := Nat.not_lt.mpr (Nat.le_trans hw.short (by decide))
  have hempty : Path.steps "" = [] := by decide
  simp [target, hzero, hw.plain.ne_empty, hpath, hsteps, hempty, start, hrelative, walk, lastTarget, hw.ne_dot,
    hw.ne_up, hslash]

theorem FreeName.target_join_dot {w : String} (hw : d.FreeName w) :
    d.target (Path.join "." w) = .ok ⟨d.workDir.child w, true, false⟩ := by
  have hzero : (Path.join "." w).contains '\x00' = false := by simpa [Path.join_dot hw.plain] using hw.no_zero
  have hrelative : Path.isAbsolute (Path.join "." w) = false := by
    rw [Path.isAbsolute_join hw.plain, Bool.eq_false_iff, Ne, Path.isAbsolute_iff]
    decide
  have hslash := Path.not_endsWith_join (c := ".") hw.plain
  have hsteps : Path.steps (Path.join "." w) = [".", w] := by
    rw [Path.steps_join hw.plain]
    rfl
  have hempty : Path.join "." w ≠ "" := by simp [Path.join_dot hw.plain]
  have hpath : ¬ (Path.join "." w).utf8ByteSize > maxPath := by
    rw [Path.join_dot hw.plain, String.utf8ByteSize_append]
    exact Nat.not_lt.mpr (Nat.le_trans (Nat.add_le_add_left hw.short _) (by decide))
  simp [target, hzero, hempty, hpath, hsteps, start, hrelative, walk, lastTarget, hw.ne_dot, hw.ne_up, hslash]

theorem FreeName.not_tooLong {w : String} (hw : d.FreeName w) :
    (Target.mk (d.workDir.child w) true false).isTooLong = false := by
  simp [Target.isTooLong, hw.short]

theorem FreeName.resolve_eq {w : String} (hw : d.FreeName w) : d.resolve w = .ok ⟨d.workDir.child w, true, false⟩ :=
  resolve_eq_ok_iff.mpr ⟨hw.target_eq, hw.not_tooLong⟩

theorem FreeName.create_eq {w : String} (hw : d.FreeName w) :
    d.create w = .ok (d.workDir.child w, d.set (d.workDir.child w) (.file ByteArray.empty defaultMode)) := by
  simp [create, hw.target_eq, hw.not_tooLong, hw.free]

/-! Trees with one more file. -/

theorem exists?_of_free {path : String} {t : Target} (ht : d.resolve path = .ok t) (hfree : d.entry? t.place = none) :
    d.exists? path = false := by
  simp [exists?, stat, ht, hfree, Except.toBool]

theorem exists?_of_entry {path : String} {t : Target} (ht : d.resolve path = .ok t) (hs : t.slash = false)
    (he : (d.entry? t.place).isSome) : d.exists? path = true := by
  obtain ⟨e, he⟩ := Option.isSome_iff_exists.mp he
  cases e <;> simp [exists?, stat, ht, hs, he, Except.toBool]

theorem read_of_resolve {path : String} {t : Target} (ht : d.resolve path = .ok t) (hs : t.slash = false)
    {b : Bytes} {m : Nat} (he : d.entry? t.place = some (.file b m)) : d.read path = .ok b := by
  simp [read, stat, ht, he, hs]

/-- A path that leads to the same entry as before is read as before. -/
theorem read_congr {path : String} {t : Target} (ht : d.resolve path = .ok t) (ht' : d'.resolve path = .ok t)
    (he : d'.entry? t.place = d.entry? t.place) : d'.read path = d.read path := by
  simp only [read, stat, ht, ht', he]

theorem stat_of_read {path : String} {b : Bytes} (h : d.read path = .ok b) : ∃ m, d.stat path = .ok (.file b m) := by
  unfold read at h
  split at h
  · cases h
  · rename_i c m hs
    cases h
    exact ⟨m, hs⟩
  · cases h

/-- The bytes of a text are read as that text. -/
theorem readText_of_read {path text : String} (h : d.read path = .ok text.toUTF8) : d.readText path = .ok text := by
  rw [readText, h]
  simp only [Utf8.fromUTF8?_toUTF8]
  rfl

theorem exists?_of_readText {path text : String} (h : d.readText path = .ok text) : d.exists? path = true := by
  unfold readText at h
  split at h
  · cases h
  · rename_i b hread
    obtain ⟨m, hstat⟩ := stat_of_read hread
    simp [exists?, hstat, Except.toBool]

theorem openSource_of_read {path : String} {b : Bytes} (h : d.read path = .ok b) :
    d.openSource path = .ok (.ofBytes b) := by
  obtain ⟨m, hstat⟩ := stat_of_read h
  simp [openSource, hstat]

theorem of_read {path : String} {b : Bytes} (h : d.read path = .ok b) :
    ∃ t m, d.resolve path = .ok t ∧ t.slash = false ∧ d.entry? t.place = some (.file b m) := by
  obtain ⟨m, hstat⟩ := stat_of_read h
  unfold stat at hstat
  split at hstat
  · cases hstat
  · rename_i t ht
    split at hstat
    · cases hstat
    · cases hstat
    · rename_i c n he
      split at hstat
      · cases hstat
      · rename_i hslash
        cases hstat
        exact ⟨t, m, ht, by simpa using hslash, he⟩

/-- A file that can be read is read as before once there is another one. -/
theorem read_set {path : String} {b : Bytes} (hr : d.read path = .ok b) {q : Place} (hq : q ≠ .root)
    (h : d.entry? q = none) (c : Bytes) (m : Nat) : (d.set q (.file c m)).read path = .ok b := by
  cases ht : d.resolve path with
  | error x => simp [read, stat, ht] at hr
  | ok t =>
    cases he : d.entry? t.place with
    | none => simp [read, stat, ht, he] at hr
    | some e =>
      have hne : t.place ≠ q := by
        rintro hp
        rw [hp, h] at he
        cases he
      have ht' := (sameDirectories_set hq h c m).resolve_eq ht
      have he' : entry? (d.set q (.file c m)) t.place = some e := by rw [entry?_set hq, if_neg hne, he]
      rw [← hr, read, read, stat, stat, ht, ht']
      simp only [he, he']

/-- One more file in a directory is one more name in its list. -/
theorem list?_set {path : String} {l : List (String × Entry)} {t : Target} (ht : d.resolve path = .ok t)
    (hl : d.list? path = some l) {w : String} (h : d.entry? (t.place.child w) = none) (b : Bytes) (m : Nat) :
    ∃ l', (d.set (t.place.child w) (.file b m)).list? path = some l' ∧ l'.Perm ((w, .file b m) :: l) := by
  have hroot := t.place.child_ne_root w
  have hsame := sameDirectories_set hroot h b m
  obtain ⟨u, hu, hd, rfl⟩ := list?_eq_some_iff.mp hl
  obtain rfl : u = t := Except.ok.inj (hu.symm.trans ht)
  refine ⟨_, list?_eq_some_iff.mpr ⟨u, hsame.resolve_eq ht, (hsame.directory_iff _).mp hd, rfl⟩, ?_⟩
  have hnone : d.entries.get? (u.place.child w) = none := by rwa [entry?_child] at h
  refine ((SortedMap.perm_insert hnone (.file b m)).filterMap _).trans (.of_eq ?_)
  rw [List.filterMap_cons]
  simp [children]

end Disk
end ChunkRelay
