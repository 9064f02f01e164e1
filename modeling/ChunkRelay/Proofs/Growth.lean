import ChunkRelay.Proofs.PartFiles

/-! Trees that only grow. What was in one is in the other as it was, so a path that led somewhere leads there
still. Making directories adds directories and nothing else. -/
namespace ChunkRelay
namespace Disk

variable {d d' d'' : Disk} {path : String} {p q : Place}

/-- A tree with all that another one has, as it was. -/
structure Grows (d d' : Disk) : Prop where
  workDir_eq : d'.workDir = d.workDir
  kept : ∀ p e, d.entry? p = some e → d'.entry? p = some e

theorem Grows.refl (d : Disk) : Grows d d := ⟨rfl, fun _ _ he => he⟩

theorem Grows.trans (h : Grows d d') (h' : Grows d' d'') : Grows d d'' :=
  ⟨h'.workDir_eq.trans h.workDir_eq, fun p e he => h'.kept p e (h.kept p e he)⟩

theorem Grows.keepsDirectories (h : Grows d d') : KeepsDirectories d d' := ⟨h.workDir_eq, fun p => h.kept p _⟩

/-- Where nothing was, something may be put. -/
theorem grows_set (h : d.entry? q = none) (e : Entry) : Grows d (d.set q e) := by
  refine ⟨rfl, fun p f hf => ?_⟩
  have hne : p ≠ q := by
    rintro rfl
    rw [h] at hf
    cases hf
  rw [entry?_set (ne_root_of_free h), if_neg hne, hf]

theorem Grows.read_eq (h : Grows d d') {b : Bytes} (hr : d.read path = .ok b) : d'.read path = .ok b := by
  obtain ⟨t, m, ht, hslash, he⟩ := of_read hr
  exact read_of_resolve (h.keepsDirectories.resolve_eq ht) hslash (h.kept _ _ he)

/-- A new file is read by its name. -/
theorem FreeName.read_set {w : String} (hw : d.FreeName w) (content : Bytes) (mode : Nat) :
    (d.set (d.workDir.child w) (.file content mode)).read w = .ok content :=
  read_of_resolve ((grows_set hw.free _).keepsDirectories.resolve_eq hw.resolve_eq) rfl
    ((entry?_set (d.workDir.child_ne_root w) d _ _).trans (if_pos rfl))

/-- A path leads to a directory at this place. -/
structure Leads (d : Disk) (path : String) (p : Place) : Prop where
  resolves : ∃ t, d.resolve path = .ok t ∧ t.place = p
  directory : d.entry? p = some .directory

theorem Grows.leads (h : Grows d d') (hl : d.Leads path p) : d'.Leads path p := by
  obtain ⟨t, ht, hp⟩ := hl.resolves
  exact ⟨⟨t, h.keepsDirectories.resolve_eq ht, hp⟩, h.kept p _ hl.directory⟩

/-- A name behind the path of a directory leads to that name in it. -/
theorem Leads.target_join (hl : d.Leads path p) {w : String} (hw : Path.Plain w) (hdot : w ≠ ".") (hup : w ≠ "..")
    {t : Target} (ht : d.target (Path.join path w) = .ok t) : t = ⟨p.child w, true, false⟩ := by
  obtain ⟨u, hu, rfl⟩ := hl.resolves
  obtain ⟨q, hq, rfl⟩ := Disk.target_join hw hdot hup ht
  rw [walk_of_resolve hu hl.directory] at hq
  cases hq
  rfl

/-- A name that anything in a directory may have. -/
structure Usable (w : String) : Prop extends Path.Plain w where
  ne_dot : w ≠ "."
  ne_up : w ≠ ".."
  no_zero : '\x00' ∉ w.toList
  short : w.utf8ByteSize ≤ maxName

instance (w : String) : Decidable (Usable w) :=
  decidable_of_iff (Path.Plain w ∧ w ≠ "." ∧ w ≠ ".." ∧ '\x00' ∉ w.toList ∧ w.utf8ByteSize ≤ maxName)
    ⟨fun h => ⟨h.1, h.2.1, h.2.2.1, h.2.2.2.1, h.2.2.2.2⟩,
      fun h => ⟨h.toPlain, h.ne_dot, h.ne_up, h.no_zero, h.short⟩⟩

/-- A usable name does lead there, if the longer path is not too long. -/
theorem Leads.resolve_join (hl : d.Leads path p) {w : String} (hw : Usable w)
    (hlen : (Path.join path w).utf8ByteSize ≤ maxPath) :
    d.resolve (Path.join path w) = .ok ⟨p.child w, true, false⟩ := by
  obtain ⟨t, ht, rfl⟩ := hl.resolves
  have hcontains : (Path.join path w).contains '\x00' = false := by
    simpa using Path.not_mem_join hw.toPlain (by decide) (no_zero_of_target (resolve_eq_ok_iff.mp ht).1) hw.no_zero
  have hstart : d.start (Path.join path w) = d.start path := by rw [start, start, Path.isAbsolute_join hw.toPlain]
  have hwalk := walk_of_resolve ht hl.directory
  refine resolve_eq_ok_iff.mpr ⟨?_, by simp [Target.isTooLong, hw.short]⟩
  simp [target, hcontains, Path.join_ne_empty hw.toPlain path, Nat.not_lt.mpr hlen, Path.steps_join hw.toPlain,
    hstart, hwalk, lastTarget, hw.ne_dot, hw.ne_up, Path.not_endsWith_join hw.toPlain]

/-- A directory that a name behind a path leads to has that name. -/
theorem Leads.name?_eq {w : String} (hw : Path.Plain w) (hdot : w ≠ ".") (hup : w ≠ "..")
    (hl : d.Leads (Path.join path w) p) : p.name? = some w := by
  obtain ⟨t, ht, rfl⟩ := hl.resolves
  obtain ⟨q, -, rfl⟩ := Disk.target_join hw hdot hup (resolve_eq_ok_iff.mp ht).1
  exact Place.name?_child q w

/-- A path leads to an empty directory. -/
structure Vacant (d : Disk) (path : String) (p : Place) : Prop extends Leads d path p where
  empty : ∀ w, d.entry? (p.child w) = none
  below : ∀ v w, d.entry? ((p.child v).child w) = none

theorem vacant_of_parents (hl : d.Leads path p)
    (hp : ∀ a ∈ d.entries.entries, a.1.parent ≠ p ∧ a.1.parent.parent ≠ p) : d.Vacant path p := by
  refine ⟨hl, fun w => ?_, fun v w => ?_⟩
  · rw [entry?_child, Option.eq_none_iff_forall_ne_some]
    intro e he
    exact (hp _ (SortedMap.get?_eq_some_iff.mp he)).1 (Place.parent_child p w)
  · rw [entry?_child, Option.eq_none_iff_forall_ne_some]
    intro e he
    exact (hp _ (SortedMap.get?_eq_some_iff.mp he)).2 (by rw [Place.parent_child, Place.parent_child])

theorem Vacant.child_ne (hv : d.Vacant path p) (w : String) : p.child w ≠ p := by
  intro hp
  have hnone := hv.empty w
  rw [hp, hv.directory] at hnone
  cases hnone

/-- It stays empty while something is put elsewhere. -/
theorem Vacant.set (hv : d.Vacant path p) (hfree : d.entry? q = none) (hne : q.parent ≠ p)
    (hne' : q.parent.parent ≠ p) (e : Entry) : Vacant (d.set q e) path p := by
  have hentry := entry?_set (ne_root_of_free hfree) d e
  refine ⟨(grows_set hfree e).leads hv.toLeads, fun w => ?_, fun v w => ?_⟩
  · rw [hentry, if_neg, hv.empty]
    rintro rfl
    exact hne (Place.parent_child p w)
  · rw [hentry, if_neg, hv.below]
    rintro rfl
    exact hne' (by rw [Place.parent_child, Place.parent_child])

/-! Making directories. -/

/-- A tree that has got directories and nothing else. -/
structure Branches (d d' : Disk) : Prop extends Grows d d' where
  added : ∀ p e, d'.entry? p = some e → d.entry? p = some e ∨ e = .directory

theorem Branches.refl (d : Disk) : Branches d d := ⟨.refl d, fun _ _ he => .inl he⟩

theorem Branches.trans (h : Branches d d') (h' : Branches d' d'') : Branches d d'' := by
  refine ⟨h.toGrows.trans h'.toGrows, fun p e he => ?_⟩
  rcases h'.added p e he with he | he
  · exact h.added p e he
  · exact .inr he

theorem branches_set (h : d.entry? q = none) : Branches d (d.set q .directory) := by
  refine ⟨grows_set h _, fun p e he => ?_⟩
  rw [entry?_set (ne_root_of_free h)] at he
  split at he
  · exact .inr (Option.some.inj he).symm
  · exact .inl he

theorem of_makeDirectory (h : d.makeDirectory path = .ok d') :
    ∃ t, d.resolve path = .ok t ∧ d.entry? t.place = none ∧ d' = d.set t.place .directory := by
  unfold makeDirectory at h
  split at h
  · cases h
  · rename_i t ht
    split at h
    · cases h
    · split at h
      · cases h
      · rename_i hfree
        cases h
        exact ⟨t, ht, by simpa using hfree, rfl⟩

theorem branches_makeDirectory (h : d.makeDirectory path = .ok d') : Branches d d' := by
  obtain ⟨t, -, hfree, rfl⟩ := of_makeDirectory h
  exact branches_set hfree

theorem leads_of_makeDirectory (h : d.makeDirectory path = .ok d') : ∃ p, d'.Leads path p := by
  obtain ⟨t, ht, hfree, rfl⟩ := of_makeDirectory h
  have hentry := entry?_set (ne_root_of_free hfree) d .directory t.place
  rw [if_pos rfl] at hentry
  exact ⟨t.place, ⟨t, (grows_set hfree _).keepsDirectories.resolve_eq ht, rfl⟩, hentry⟩

theorem leads_of_isDirectory (h : d.isDirectory path = true) : ∃ p, d.Leads path p := by
  unfold isDirectory stat at h
  cases ht : d.resolve path with
  | error e => simp [ht] at h
  | ok t =>
    rcases he : d.entry? t.place with - | ⟨c, m⟩ | -
    · simp [ht, he] at h
    · cases hs : t.slash <;> simp [ht, he, hs] at h
    · exact ⟨t.place, ⟨t, ht, rfl⟩, he⟩

/-- Where a directory cannot be made, it may be there already. -/
theorem leads_of_refused {e : IoError} (h : (if d.isDirectory path then .ok () else .error e) = Except.ok ()) :
    ∃ p, d.Leads path p := by
  split at h
  · rename_i hdir
    exact leads_of_isDirectory hdir
  · cases h

theorem branches_ensureDirectory (d : Disk) (path : String) : Branches d (d.ensureDirectory path).2 := by
  unfold ensureDirectory
  split
  · rename_i d' hmake
    exact branches_makeDirectory hmake
  · exact .refl d

theorem leads_of_ensureDirectory (h : d.ensureDirectory path = (.ok (), d')) : ∃ p, d'.Leads path p := by
  unfold ensureDirectory at h
  split at h
  · rename_i hmake
    cases h
    exact leads_of_makeDirectory hmake
  · obtain ⟨hok, rfl⟩ := Prod.mk.inj h
    exact leads_of_refused hok

theorem branches_makeAlong (d : Disk) (p : Place) (ws : List String) : Branches d (d.makeAlong p ws).2 := by
  induction ws generalizing d p with
  | nil => exact .refl d
  | cons w ws ih =>
    rw [makeAlong]
    split
    · exact ih d p
    · split
      · exact ih d p.parent
      · split
        · exact .refl d
        · split
          · exact ih d (p.child w)
          · exact .refl d
          · rename_i hfree
            exact (branches_set hfree).trans (ih _ _)

theorem branches_makeDirectories (d : Disk) (path : String) : Branches d (d.makeDirectories path).2 := by
  unfold makeDirectories
  split
  · exact .refl d
  · split
    · rename_i d' hmake
      exact branches_makeDirectory hmake
    · have halong := branches_makeAlong d (d.start path) (Path.steps ((Path.parent? path).getD ""))
      split
      · rename_i e d' hmade
        rwa [hmade] at halong
      · rename_i d' hmade
        rw [hmade] at halong
        exact halong.trans (branches_ensureDirectory d' path)
    · exact .refl d

theorem Leads.makeDirectories_join (hl : d.Leads path p) {w : String} (hw : Usable w)
    (hlen : (Path.join path w).utf8ByteSize ≤ maxPath) (hfree : d.entry? (p.child w) = none) :
    d.makeDirectories (Path.join path w) = (.ok (), d.set (p.child w) .directory) := by
  have hmake : d.makeDirectory (Path.join path w) = .ok (d.set (p.child w) .directory) := by
    simp [makeDirectory, hl.resolve_join hw hlen, hfree]
  rw [makeDirectories, if_neg (Path.join_ne_empty hw.toPlain path), hmake]

theorem Leads.createNew_join (hl : d.Leads path p) {w : String} (hw : Usable w)
    (hlen : (Path.join path w).utf8ByteSize ≤ maxPath) (hfree : d.entry? (p.child w) = none) :
    d.createNew (Path.join path w) = .ok (p.child w, d.set (p.child w) (.file ByteArray.empty defaultMode)) := by
  obtain ⟨htarget, hlong⟩ := resolve_eq_ok_iff.mp (hl.resolve_join hw hlen)
  simp [createNew, htarget, hlong, hfree]

/-- Once directories are made, the path leads to one. -/
theorem leads_of_makeDirectories (hpath : path ≠ "") (h : d.makeDirectories path = (.ok (), d')) :
    ∃ p, d'.Leads path p := by
  rw [makeDirectories, if_neg hpath] at h
  split at h
  · rename_i hmake
    cases h
    exact leads_of_makeDirectory hmake
  · split at h
    · cases h
    · exact leads_of_ensureDirectory h
  · obtain ⟨hok, rfl⟩ := Prod.mk.inj h
    exact leads_of_refused hok

/-- What is there once making directories is refused after so many names of the path. -/
def halfMade (d : Disk) (path : String) (n : Nat) : Disk :=
  (d.makeAlong (d.start path) ((Path.steps path).take n)).2

end Disk

namespace FileStore

variable {files files' : FileStore} {h : Header}

/-- Opening a store makes its directories and nothing else, and they lead to directories then. -/
theorem of_openAt {d : Disk} {cacheDir userDir : String} {owner : Nat} {r : Except StorageError Unit}
    (hopen : openAt d cacheDir userDir owner = (r, files)) :
    Disk.Branches d files.disk ∧ files.cacheDir = cacheDir ∧ files.userDir = userDir ∧
      (r = .ok () → cacheDir ≠ "" → userDir ≠ "" →
        ∃ p q, files.disk.Leads cacheDir p ∧ files.disk.Leads userDir q) := by
  have hcache := Disk.branches_makeDirectories d cacheDir
  rcases hmade : d.makeDirectories cacheDir with ⟨e | u, d₁⟩
  · rw [hmade] at hcache
    simp only [openAt, hmade] at hopen
    cases hopen
    exact ⟨hcache, rfl, rfl, nofun⟩
  · rw [hmade] at hcache
    have huser := Disk.branches_makeDirectories d₁ userDir
    rcases hmade' : d₁.makeDirectories userDir with ⟨e | u, d₂⟩
    · rw [hmade'] at huser
      simp only [openAt, hmade, hmade'] at hopen
      cases hopen
      exact ⟨hcache.trans huser, rfl, rfl, nofun⟩
    · rw [hmade'] at huser
      simp only [openAt, hmade, hmade'] at hopen
      cases hopen
      refine ⟨hcache.trans huser, rfl, rfl, fun _ hc hu => ?_⟩
      obtain ⟨p, hp⟩ := Disk.leads_of_makeDirectories hc hmade
      obtain ⟨q, hq⟩ := Disk.leads_of_makeDirectories hu hmade'
      exact ⟨p, q, huser.leads hp, hq⟩

/-- In an empty directory both directories are made. -/
theorem openAt_of_vacant {d : Disk} {dir v w : String} {p : Place} (hd : d.Vacant dir p) (hv : Disk.Usable v)
    (hw : Disk.Usable w) (hne : v ≠ w) (hlen : (Path.join dir v).utf8ByteSize ≤ Disk.maxPath)
    (hlen' : (Path.join dir w).utf8ByteSize ≤ Disk.maxPath) (owner : Nat) :
    openAt d (Path.join dir v) (Path.join dir w) owner =
      (.ok (), ⟨(d.set (p.child v) .directory).set (p.child w) .directory, Path.join dir v, Path.join dir w, owner,
        0⟩) ∧ Disk.entry? (d.set (p.child v) .directory) (p.child w) = none := by
  have hgrows := Disk.grows_set (hd.empty v) .directory
  have hfree : Disk.entry? (d.set (p.child v) .directory) (p.child w) = none := by
    have hplace : p.child w ≠ p.child v := fun hp => hne (Place.child_inj hp).2.symm
    rw [Disk.entry?_set (p.child_ne_root v), if_neg hplace, hd.empty]
  refine ⟨?_, hfree⟩
  simp only [openAt, hd.makeDirectories_join hv hlen (hd.empty v),
    (hgrows.leads hd.toLeads).makeDirectories_join hw hlen' hfree]

end FileStore
end ChunkRelay
