import ChunkRelay.Proofs.Names
import ChunkRelay.Proofs.Trees

/-! Part files, from their making to their end. A part file that is dropped leaves the tree as it was, and
one that is committed leaves one new file in it or none. -/
namespace ChunkRelay

namespace Disk

variable {d : Disk} {q : Place}

theorem set_append (d : Disk) (q : Place) (b c : Bytes) (m : Nat) :
    (d.set q (.file b m)).append q c = d.set q (.file (b ++ c) m) := by
  have hentries : (d.entries.insert q (.file b m)).modify q (·.append c) =
      d.entries.insert q (.file (b ++ c) m) := by
    refine SortedMap.ext_get? fun p => ?_
    rw [SortedMap.get?_modify, SortedMap.get?_insert, SortedMap.get?_insert, SortedMap.get?_insert]
    by_cases hp : p = q
    · simp [hp, Entry.append]
    · simp [hp]
  simp only [append, set, hentries]

theorem remove_set (hq : q ≠ .root) (h : d.entry? q = none) (e : Entry) : (d.set q e).remove q = d := by
  have hnone : d.entries.get? q = none := by simpa [Disk.entry?, hq] using h
  have hentries : (d.entries.insert q e).erase q = d.entries := by
    refine SortedMap.ext_get? fun p => ?_
    rw [SortedMap.get?_erase, SortedMap.get?_insert]
    by_cases hp : p = q
    · simp [hp, hnone]
    · simp [hp]
  simp only [remove, set, hentries]

theorem remove_set_set {r : Place} (hq : q ≠ .root) (h : d.entry? q = none) (hr : r ≠ q) (e f : Entry) :
    ((d.set q e).set r f).remove q = d.set r f := by
  have hnone : d.entries.get? q = none := by simpa [Disk.entry?, hq] using h
  have hentries : ((d.entries.insert q e).insert r f).erase q = d.entries.insert r f := by
    refine SortedMap.ext_get? fun p => ?_
    rw [SortedMap.get?_erase, SortedMap.get?_insert, SortedMap.get?_insert, SortedMap.get?_insert]
    by_cases hp : p = q
    · simp [hp, hnone, Ne.symm hr]
    · rw [if_neg hp, if_neg hp]
  simp only [remove, set, hentries]

/-- A file that can be made at a path: the path leads to a free place for it. -/
theorem of_createNew {path : String} {d' : Disk} (h : d.createNew path = .ok (q, d')) :
    ∃ t, d.resolve path = .ok t ∧ t.named = true ∧ t.slash = false ∧ d.entry? q = none ∧ t.place = q ∧
      d' = d.set q (.file ByteArray.empty defaultMode) := by
  unfold createNew at h
  split at h
  · cases h
  · rename_i t ht
    split at h
    · cases h
    · rename_i hnamed
      split at h
      · cases h
      · rename_i hslash
        split at h
        · cases h
        · rename_i hlong
          split at h
          · rename_i he
            cases h
            exact ⟨t, resolve_eq_ok_iff.mpr ⟨ht, by simpa using hlong⟩, by simpa using hnamed,
              by simpa using hslash, he, rfl, rfl⟩
          · cases h

/-- A file that is opened for writing is empty, at the place where the path leads. -/
theorem of_create {path : String} {d' : Disk} (h : d.create path = .ok (q, d')) :
    ∃ t m, d.resolve path = .ok t ∧ t.slash = false ∧ t.place = q ∧ q ≠ .root ∧ d.entry? q ≠ some .directory ∧
      d' = d.set q (.file ByteArray.empty m) := by
  unfold create at h
  split at h
  · cases h
  · rename_i t ht
    split at h
    · cases h
    · rename_i hplain
      obtain ⟨-, hslash⟩ := not_or.mp hplain
      split at h
      · cases h
      · rename_i hlong
        have hresolve : d.resolve path = .ok t := resolve_eq_ok_iff.mpr ⟨ht, by simpa using hlong⟩
        have hplace {e : Option Entry} (he : d.entry? t.place = e) (hdir : e ≠ some .directory) :
            t.place ≠ .root ∧ d.entry? t.place ≠ some .directory := by
          refine ⟨fun hroot => ?_, he ▸ hdir⟩
          rw [hroot] at he
          exact hdir he.symm
        split at h
        · rename_i he
          cases h
          obtain ⟨hroot, hdir⟩ := hplace he (by simp)
          exact ⟨t, _, hresolve, by simpa using hslash, rfl, hroot, hdir, rfl⟩
        · rename_i c m he
          cases h
          obtain ⟨hroot, hdir⟩ := hplace he (by simp)
          exact ⟨t, m, hresolve, by simpa using hslash, rfl, hroot, hdir, rfl⟩
        · cases h

theorem ne_root_of_free (h : d.entry? q = none) : q ≠ .root := by
  rintro rfl
  cases h

theorem unlink_set {path : String} {t : Target} (ht : d.resolve path = .ok t) (hn : t.named = true)
    (hs : t.slash = false) {b : Bytes} {m : Nat} (he : d.entry? t.place = some (.file b m)) :
    d.unlink path = .ok (d.remove t.place) := by
  simp [unlink, ht, hn, hs, he]

/-- A target is absent: it is a name that nothing has. -/
def Absent (d : Disk) (t : Target) : Prop := t.named = true ∧ t.slash = false ∧ d.entry? t.place = none

/-- Something is at a target already. -/
def Taken (d : Disk) (t : Target) : Prop := t.named = false ∨ (d.entry? t.place).isSome = true

/-- A link to a file, by where its new path leads. -/
theorem link_eq {old : String} {b : Bytes} {m : Nat} (h : d.stat old = .ok (.file b m)) (new : String) :
    d.link old new =
      match d.resolve new with
      | .error x => .error x
      | .ok t =>
        if t.named = false ∨ (d.entry? t.place).isSome then .error .exists
        else if t.slash then .error .notFound
        else .ok (d.set t.place (.file b m)) := by
  simp only [link, h]
  cases d.resolve new with
  | error x => rfl
  | ok t => cases hn : t.named <;> cases ht : d.entry? t.place <;> simp [hn, ht]

/-- A link to a file is one more file at a free place, and none where a path leads to no such place. -/
theorem link_cases {old : String} {b : Bytes} {m : Nat} (h : d.stat old = .ok (.file b m)) (new : String) :
    (∃ t, d.resolve new = .ok t ∧ d.entry? t.place = none ∧ t.named = true ∧ t.slash = false ∧
      d.link old new = .ok (d.set t.place (.file b m))) ∨
    (∃ t, d.resolve new = .ok t ∧ (t.named = false ∨ (d.entry? t.place).isSome) ∧
      d.link old new = .error .exists) ∨
    ∃ x, x ≠ .exists ∧ (∀ t, d.resolve new = .ok t → t.slash = true) ∧ d.link old new = .error x := by
  rw [link_eq h]
  cases ht : d.resolve new with
  | error x =>
    refine .inr (.inr ⟨x, ?_, nofun, rfl⟩)
    rintro rfl
    exact resolve_ne_exists ht
  | ok t =>
    by_cases htaken : t.named = false ∨ (d.entry? t.place).isSome
    · exact .inr (.inl ⟨t, rfl, htaken, if_pos htaken⟩)
    obtain ⟨hnamed, hfree⟩ := not_or.mp htaken
    simp only [if_neg htaken]
    by_cases hslash : t.slash
    · refine .inr (.inr ⟨.notFound, by simp, ?_, if_pos hslash⟩)
      rintro _ ⟨⟩
      exact hslash
    · exact .inl ⟨t, rfl, by simpa using hfree, by simpa using hnamed, by simpa using hslash, if_neg hslash⟩

end Disk

namespace FileStore

theorem writePart_writePart (files : FileStore) (p : PartFile) (a b : Bytes) :
    (files.writePart p a).2.writePart (files.writePart p a).1 b = files.writePart p (a ++ b) := by
  simp [writePart, Disk.append, SortedMap.modify_modify, Entry.append_append, Nat.add_assoc]

theorem writePart_empty (files : FileStore) (p : PartFile) :
    files.writePart p ByteArray.empty = (p, files) := by
  simp [writePart, Disk.append, SortedMap.modify_self]

/-- The store once a part file is begun and has left nothing. -/
def spent (files : FileStore) : FileStore := { files with begun := files.begun + 1 }

/-- The store with one more file. -/
def holding (files : FileStore) (p : Place) (b : Bytes) : FileStore :=
  { files with disk := files.disk.set p (.file b Disk.defaultMode) }

/-- A part file at a free place of the tree. -/
structure Begins (files : FileStore) (path : String) (part : PartFile) (t : Disk.Target) : Prop where
  resolve_eq : files.disk.resolve part.path = .ok t
  named : t.named = true
  no_slash : t.slash = false
  free : files.disk.entry? t.place = none
  place_eq : part.place = t.place
  target_eq : part.target = path

variable {files f : FileStore} {path : String} {part : PartFile}

theorem begins_of_createPart (h : files.createPart path = (.ok part, f)) :
    f = files.spent.holding part.place ByteArray.empty ∧ ∃ t, files.Begins path part t := by
  unfold createPart at h
  simp only at h
  split at h
  · cases h
  · rename_i place d hnew
    obtain ⟨t, hr, hn, hs, he, rfl, rfl⟩ := Disk.of_createNew hnew
    cases h
    exact ⟨rfl, t, hr, hn, hs, he, rfl, rfl⟩

theorem createPart_error {x : StorageError} (h : files.createPart path = (.error x, f)) : f = files.spent := by
  unfold createPart at h
  simp only at h
  split at h
  · cases h
    rfl
  · cases h

/-- The last name of a part file's path is its own. -/
theorem exists_join_of_createPart (h : files.createPart path = (.ok part, f)) :
    Path.Plain (files.partName ((Path.fileName? path).getD "message")) ∧
      ∃ c, part.path = Path.join c (files.partName ((Path.fileName? path).getD "message")) := by
  have hslash : '/' ∉ ((Path.fileName? path).getD "message").toList := by
    cases hname : Path.fileName? path with
    | none => decide
    | some w => exact (Path.plain_of_fileName? hname).no_slash
  have hpath : part.path =
      Path.withFileName path (files.partName ((Path.fileName? path).getD "message")) := by
    unfold createPart at h
    simp only at h
    split at h
    · cases h
    · cases h
      rfl
  obtain ⟨c, hc⟩ :=
    Path.exists_join_eq_withFileName path (files.partName ((Path.fileName? path).getD "message"))
  exact ⟨plain_partName files hslash, c, hpath.trans hc⟩

/-- The name of a part file leads into the directory of the path itself. -/
theorem exists_path_of_createPart (h : files.createPart path = (.ok part, f)) :
    ∃ c w, Path.Plain w ∧ w ≠ "." ∧ w ≠ ".." ∧ (∃ l, w.toList = '.' :: l) ∧ part.path = Path.join c w := by
  obtain ⟨hplain, c, hc⟩ := exists_join_of_createPart h
  obtain ⟨hdot, hup⟩ := partName_ne_dots files ((Path.fileName? path).getD "message")
  exact ⟨c, _, hplain, hdot, hup, toList_partName files _, hc⟩

/-- A part file has its hidden name in some directory. -/
theorem name?_of_createPart (h : files.createPart path = (.ok part, f)) :
    part.place.name? = some (files.partName ((Path.fileName? path).getD "message")) := by
  obtain ⟨hplain, c, hc⟩ := exists_join_of_createPart h
  obtain ⟨hdot, hup⟩ := partName_ne_dots files ((Path.fileName? path).getD "message")
  obtain ⟨-, t, hbegins⟩ := begins_of_createPart h
  have hr := hbegins.resolve_eq
  rw [hc] at hr
  obtain ⟨p, -, rfl⟩ := Disk.target_join hplain hdot hup (Disk.resolve_eq_ok_iff.mp hr).1
  rw [hbegins.place_eq]
  exact p.name?_child _

theorem Begins.sameDirectories {t : Disk.Target} (h : files.Begins path part t) (b : Bytes) :
    Disk.SameDirectories files.disk (files.spent.holding part.place b).disk := by
  rw [h.place_eq]
  exact Disk.sameDirectories_set (Disk.ne_root_of_free h.free) h.free b Disk.defaultMode

theorem Begins.entry?_holding {t : Disk.Target} (h : files.Begins path part t) (b : Bytes) (p : Place) :
    (files.spent.holding part.place b).disk.entry? p =
      if p = t.place then some (.file b Disk.defaultMode) else files.disk.entry? p := by
  rw [h.place_eq]
  exact Disk.entry?_set (Disk.ne_root_of_free h.free) files.disk _ p

theorem writePart_holding (files : FileStore) (part : PartFile) (b c : Bytes) :
    (files.holding part.place b).writePart part c =
      ({ part with written := part.written + c.size }, files.holding part.place (b ++ c)) := by
  simp only [writePart, holding, Disk.set_append]

/-- Dropping a part file leaves nothing of it. -/
theorem Begins.dropPart_eq {t : Disk.Target} (h : files.Begins path part t) (b : Bytes) (n : Nat) :
    (files.spent.holding part.place b).dropPart { part with written := n } = files.spent := by
  have hr := (h.sameDirectories b).resolve_eq h.resolve_eq
  have he : (files.spent.holding part.place b).disk.entry? t.place = some (.file b Disk.defaultMode) := by
    rw [h.entry?_holding, if_pos rfl]
  have hremove : (files.spent.holding part.place b).disk.remove t.place = files.disk := by
    rw [h.place_eq]
    exact Disk.remove_set (Disk.ne_root_of_free h.free) h.free _
  simp only [dropPart, Disk.unlink_set hr h.named h.no_slash he, hremove]
  rfl

/-- Once the file has its other name as well, dropping the part file leaves that one. -/
theorem Begins.dropPart_linked {t : Disk.Target} (h : files.Begins path part t) {b : Bytes} {n : Nat}
    {p : Place} (hp : (files.spent.holding part.place b).disk.entry? p = none) :
    dropPart
      { files.spent.holding part.place b with
        disk := (files.spent.holding part.place b).disk.set p (.file b Disk.defaultMode) }
      { part with written := n } = files.spent.holding p b := by
  have hroot := Disk.ne_root_of_free hp
  have hplace : p ≠ t.place := by
    intro he
    rw [h.entry?_holding, if_pos he] at hp
    cases hp
  have hr := ((h.sameDirectories b).trans (Disk.sameDirectories_set hroot hp b Disk.defaultMode)).resolve_eq
    h.resolve_eq
  have he : Disk.entry? ((files.spent.holding part.place b).disk.set p (.file b Disk.defaultMode)) t.place =
      some (.file b Disk.defaultMode) := by
    rw [Disk.entry?_set hroot, if_neg (Ne.symm hplace), h.entry?_holding, if_pos rfl]
  have hremove : ((files.spent.holding part.place b).disk.set p (.file b Disk.defaultMode)).remove t.place =
      files.disk.set p (.file b Disk.defaultMode) := by
    rw [h.place_eq]
    exact Disk.remove_set_set (Disk.ne_root_of_free h.free) h.free hplace _ _
  simp only [dropPart, Disk.unlink_set hr h.named h.no_slash he, hremove]
  rfl

/-- Committing a part file puts a file with its content at the target, which was free, or leaves nothing:
the target is taken, or cannot be reached. -/
theorem Begins.commit_cases {t : Disk.Target} (h : files.Begins path part t) {b : Bytes} {n : Nat}
    {r : Except StorageError Commit} {f : FileStore}
    (hc : (files.spent.holding part.place b).commit { part with written := n } = (r, f)) :
    (r = .ok .written ∧ ∃ u, files.disk.resolve path = .ok u ∧ files.disk.entry? u.place = none ∧
      u.named = true ∧ u.slash = false ∧ f = files.spent.holding u.place b) ∨
    (r = .ok .alreadyPresent ∧ f = files.spent ∧ ∃ u, files.disk.resolve path = .ok u ∧
      (u.named = false ∨ u.place = t.place ∨ (files.disk.entry? u.place).isSome)) ∨
    ((∃ x, r = .error x) ∧ f = files.spent ∧ ∀ u, files.disk.resolve path = .ok u → u.slash = true) := by
  obtain rfl : part.target = path := h.target_eq
  have hdrop := h.dropPart_eq b n
  have hr := (h.sameDirectories b).resolve_eq h.resolve_eq
  have hentry := h.entry?_holding b
  have hstat : (files.spent.holding part.place b).disk.stat part.path = .ok (.file b Disk.defaultMode) := by
    simp [Disk.stat, hr, hentry, h.no_slash]
  rcases Disk.link_cases hstat part.target with
    ⟨u, hu, hfree, hnamed, hslash, hlink⟩ | ⟨u, hu, htaken, hlink⟩ | ⟨x, hx, hslash, hlink⟩
  · have hplace : u.place ≠ t.place := by
      intro he
      rw [hentry, if_pos he] at hfree
      cases hfree
    simp only [commit, hlink, h.dropPart_linked hfree, Prod.mk.injEq] at hc
    rw [hentry, if_neg hplace] at hfree
    exact .inl ⟨hc.1.symm, u, (h.sameDirectories b).symm.resolve_eq hu, hfree, hnamed, hslash, hc.2.symm⟩
  · simp only [commit, hlink, hdrop, Prod.mk.injEq] at hc
    refine .inr (.inl ⟨hc.1.symm, hc.2.symm, u, (h.sameDirectories b).symm.resolve_eq hu, ?_⟩)
    refine htaken.imp_right fun hsome => ?_
    by_cases hplace : u.place = t.place
    · exact .inl hplace
    · rw [hentry, if_neg hplace] at hsome
      exact .inr hsome
  · refine .inr (.inr ?_)
    simp only [commit, hlink, hdrop] at hc
    cases hc
    exact ⟨⟨_, rfl⟩, rfl, fun u hu => hslash u ((h.sameDirectories b).resolve_eq hu)⟩

theorem cacheDir_of_commit {f' : FileStore} {b : Bytes} {r : Except StorageError Commit}
    (hpart : files.createPart path = (.ok part, f))
    (hcommit : (f.writePart part b).2.commit (f.writePart part b).1 = (r, f')) : f'.cacheDir = files.cacheDir := by
  obtain ⟨rfl, t, hbegins⟩ := begins_of_createPart hpart
  rw [writePart_holding] at hcommit
  rcases hbegins.commit_cases hcommit with ⟨-, u, -, -, -, -, rfl⟩ | ⟨-, rfl, -⟩ | ⟨-, rfl, -⟩ <;> rfl

/-! The cache directory. -/

/-- Bodies have one path if they have one name, and only then. -/
theorem names_pathFor_eq_iff {g h : Header} (hg : g.Made) (hh : h.Made) (hge : g.endOfStream = false)
    (hhe : h.endOfStream = false) :
    Path.names (files.pathFor g) = Path.names (files.pathFor h) ↔ g.storageName = h.storageName := by
  obtain ⟨hgplain, hgdot, -⟩ := hg.plain hge
  obtain ⟨hhplain, hhdot, -⟩ := hh.plain hhe
  rw [pathFor, pathFor, Path.names_join hgplain hgdot, Path.names_join hhplain hhdot, List.append_cancel_left_eq,
    List.singleton_inj]

/-- Bodies with one path have one key. -/
theorem contentKey_of_pathFor {g h : Header} (hg : g.Made) (hh : h.Made) (hge : g.endOfStream = false)
    (hhe : h.endOfStream = false) (hnames : Path.names (files.pathFor g) = Path.names (files.pathFor h)) :
    g.contentKey = h.contentKey :=
  ((Header.storageName_eq_iff hge hhe).mp ((names_pathFor_eq_iff hg hh hge hhe).mp hnames)).1

/-- The path of a body leads to its name in some directory. -/
theorem target_pathFor {h : Header} (hm : h.Made) (he : h.endOfStream = false) {t : Disk.Target}
    (ht : files.disk.resolve (files.pathFor h) = .ok t) :
    ∃ p, files.disk.walk (files.disk.start files.cacheDir) (Path.steps files.cacheDir) = .ok p ∧
      t = ⟨p.child h.storageName, true, false⟩ := by
  obtain ⟨hplain, hdot, hup⟩ := hm.plain he
  exact Disk.target_join hplain hdot hup (Disk.resolve_eq_ok_iff.mp ht).1

/-- The cache directory leads to the place in which every body has its file. -/
theorem resolve_pathFor {h : Header} {l : List (String × Entry)}
    (hl : files.disk.list? files.cacheDir = some l) (hm : h.Made) (he : h.endOfStream = false)
    {t : Disk.Target} (ht : files.disk.resolve (files.pathFor h) = .ok t) :
    ∃ u, files.disk.resolve files.cacheDir = .ok u ∧ files.disk.children u.place = l ∧
      t = ⟨u.place.child h.storageName, true, false⟩ := by
  obtain ⟨u, hu, hd, hc⟩ := Disk.list?_eq_some_iff.mp hl
  obtain ⟨p, hp, rfl⟩ := target_pathFor hm he ht
  rw [Disk.walk_of_resolve hu hd] at hp
  cases hp
  exact ⟨u, hu, hc, rfl⟩

theorem read_holding {t : Disk.Target} (ht : files.disk.resolve path = .ok t) (hs : t.slash = false)
    (hfree : files.disk.entry? t.place = none) (b : Bytes) :
    (files.spent.holding t.place b).disk.read path = .ok b := by
  have hroot := Disk.ne_root_of_free hfree
  have ht' := (Disk.sameDirectories_set hroot hfree b Disk.defaultMode).resolve_eq ht
  have he := Disk.entry?_set hroot files.disk (.file b Disk.defaultMode) t.place
  rw [if_pos rfl] at he
  exact Disk.read_of_resolve ht' hs he

/-- A part file is not where a body has its file: only its name starts with a dot. -/
theorem Begins.place_ne {t : Disk.Target} (hb : files.Begins path part t)
    (hpart : files.createPart path = (.ok part, f)) {h : Header} (hm : h.Made) (he : h.endOfStream = false)
    (p : Place) : p.child h.storageName ≠ t.place := by
  obtain ⟨c, w, hplain, hdot, hup, ⟨l, hw⟩, hpath⟩ := exists_path_of_createPart hpart
  have hr := hb.resolve_eq
  rw [hpath] at hr
  obtain ⟨q, -, rfl⟩ := Disk.target_join hplain hdot hup (Disk.resolve_eq_ok_iff.mp hr).1
  intro hplace
  exact Header.storageName_ne he hm.clean hw rfl (Place.child_inj hplace).2

/-- A path for a new file: a part file can be made for it, and it leads to a free place. -/
structure Free (files : FileStore) (path : String) : Prop where
  begins : ∃ part f, files.createPart path = (.ok part, f)
  leads : ∃ t, files.disk.resolve path = .ok t ∧ files.disk.entry? t.place = none

/-- A path at which a body can have its file: a part file can be made for it, and the path leads to a free
place or to a file that has this very body. -/
structure Accepts (files : FileStore) (path : String) (b : Bytes) : Prop where
  begins : ∃ part f, files.createPart path = (.ok part, f)
  leads : ∃ t, files.disk.resolve path = .ok t ∧
    (files.disk.entry? t.place = none ∨ ∃ m, files.disk.entry? t.place = some (.file b m))

theorem Free.accepts (h : files.Free path) (b : Bytes) : files.Accepts path b where
  begins := h.begins
  leads :=
    let ⟨t, ht, hfree⟩ := h.leads
    ⟨t, ht, .inl hfree⟩

theorem Free.not_exists (h : files.Free path) : files.disk.exists? path = false :=
  let ⟨_, ht, hfree⟩ := h.leads
  Disk.exists?_of_free ht hfree

/-- A part file can be made where its path leads to a free place. -/
theorem exists_createPart {v w : String} {q : Place} (hname : Path.fileName? path = some w)
    (hpart : Path.withFileName path (files.partName w) = v) (hnew : files.disk.target v = .ok ⟨q, true, false⟩)
    (hlong : (Disk.Target.mk q true false).isTooLong = false) (hq : files.disk.entry? q = none) :
    ∃ part f, files.createPart path = (.ok part, f) := by
  have hcreate : files.disk.createNew v = .ok (q, files.disk.set q (.file ByteArray.empty Disk.defaultMode)) := by
    simp [Disk.createNew, hnew, hlong, hq]
  simp only [createPart, hname, Option.getD_some, hpart, hcreate]
  exact ⟨_, _, rfl⟩

/-- In the working directory a body can have its file if its name and that of the part file are new. -/
theorem accepts_of_freeName {w : String} (hw : files.disk.FreeName w)
    (hpart : files.disk.FreeName (files.partName w)) (b : Bytes) : files.Accepts w b := by
  obtain ⟨hname, hpath⟩ := Path.withFileName_of_plain hw.plain hw.ne_dot hw.ne_up (files.partName w)
  rw [Path.join_empty hpart.plain] at hpath
  have hfree : files.Free w :=
    ⟨exists_createPart hname hpath hpart.target_eq hpart.not_tooLong hpart.free, _, hw.resolve_eq, hw.free⟩
  exact hfree.accepts b

theorem exists_createPart_join_dot {w : String} (hplain : Path.Plain w) (hdot : w ≠ ".") (hup : w ≠ "..")
    (hpart : files.disk.FreeName (files.partName w)) :
    ∃ part f, files.createPart (Path.join "." w) = (.ok part, f) := by
  obtain ⟨hname, hpath⟩ := Path.withFileName_join_dot hplain hdot hup (files.partName w)
  exact exists_createPart hname hpath hpart.target_join_dot hpart.not_tooLong hpart.free

theorem free_join_dot {w : String} (hw : files.disk.FreeName w) (hpart : files.disk.FreeName (files.partName w)) :
    files.Free (Path.join "." w) where
  begins := exists_createPart_join_dot hw.plain hw.ne_dot hw.ne_up hpart
  leads := ⟨_, Disk.resolve_eq_ok_iff.mpr ⟨hw.target_join_dot, hw.not_tooLong⟩, hw.free⟩

/-- A short name that is new, for the file of a body. -/
theorem freeName_storageName {h : Header} (hm : h.Made) (he : h.endOfStream = false) {d : Disk}
    (hname : '\x00' ∉ h.storageName.toList ∧ h.storageName.utf8ByteSize ≤ Disk.maxName ∧
      d.entry? (d.workDir.child h.storageName) = none) : d.FreeName h.storageName :=
  let ⟨hplain, hdot, hup⟩ := hm.plain he
  ⟨hplain, hdot, hup, hname.1, hname.2.1, hname.2.2⟩

/-- A short name that is new, for the part file of a body. -/
theorem freeName_partName {h : Header} (hm : h.Made) (he : h.endOfStream = false)
    (hpart : '\x00' ∉ (files.partName h.storageName).toList ∧
      (files.partName h.storageName).utf8ByteSize ≤ Disk.maxName ∧
        files.disk.entry? (files.disk.workDir.child (files.partName h.storageName)) = none) :
    files.disk.FreeName (files.partName h.storageName) := by
  obtain ⟨hplain, -⟩ := hm.plain he
  obtain ⟨hdot, hup⟩ := partName_ne_dots files h.storageName
  exact ⟨plain_partName files hplain.no_slash, hdot, hup, hpart.1, hpart.2.1, hpart.2.2⟩

/-- With the working directory for a cache, a body can have a new file if its name is short and new, and so is
that of its part file. -/
theorem free_pathFor {h : Header} (hm : h.Made) (he : h.endOfStream = false) (hcache : files.cacheDir = ".")
    (hname : '\x00' ∉ h.storageName.toList ∧ h.storageName.utf8ByteSize ≤ Disk.maxName ∧
      files.disk.entry? (files.disk.workDir.child h.storageName) = none)
    (hpart : '\x00' ∉ (files.partName h.storageName).toList ∧
      (files.partName h.storageName).utf8ByteSize ≤ Disk.maxName ∧
        files.disk.entry? (files.disk.workDir.child (files.partName h.storageName)) = none) :
    files.Free (files.pathFor h) := by
  have hfree := free_join_dot (freeName_storageName hm he hname) (freeName_partName hm he hpart)
  rwa [← hcache] at hfree

theorem accepts_pathFor {h : Header} (hm : h.Made) (he : h.endOfStream = false) (hcache : files.cacheDir = ".")
    (hname : '\x00' ∉ h.storageName.toList ∧ h.storageName.utf8ByteSize ≤ Disk.maxName ∧
      files.disk.entry? (files.disk.workDir.child h.storageName) = none)
    (hpart : '\x00' ∉ (files.partName h.storageName).toList ∧
      (files.partName h.storageName).utf8ByteSize ≤ Disk.maxName ∧
        files.disk.entry? (files.disk.workDir.child (files.partName h.storageName)) = none) (b : Bytes) :
    files.Accepts (files.pathFor h) b :=
  (free_pathFor hm he hcache hname hpart).accepts b

/-- A part file for a body is committed if the path of the body leads anywhere. -/
theorem exists_commit {h : Header} (hm : h.Made) (he : h.endOfStream = false) {t : Disk.Target}
    (ht : files.disk.resolve (files.pathFor h) = .ok t) (hpart : files.createPart (files.pathFor h) = (.ok part, f))
    (b : Bytes) : ∃ w f', (f.writePart part b).2.commit (f.writePart part b).1 = (.ok w, f') := by
  obtain ⟨rfl, u, hbegins⟩ := begins_of_createPart hpart
  obtain ⟨p, -, rfl⟩ := target_pathFor hm he ht
  rw [writePart_holding]
  rcases hcommit : (files.spent.holding part.place (ByteArray.empty ++ b)).commit
      { part with written := part.written + b.size } with ⟨r, f'⟩
  rcases hbegins.commit_cases hcommit with ⟨rfl, -⟩ | ⟨rfl, -⟩ | ⟨-, -, hslash⟩
  · exact ⟨_, _, rfl⟩
  · exact ⟨_, _, rfl⟩
  · exact absurd (hslash _ ht) (by simp)

/-- What is read at the path of a body once its part file is committed: the body, or what stood there before. -/
theorem read_of_commit {h : Header} (hm : h.Made) (he : h.endOfStream = false) {b : Bytes} {w : Commit}
    {f' : FileStore} (hpart : files.createPart (files.pathFor h) = (.ok part, f))
    (hcommit : (f.writePart part b).2.commit (f.writePart part b).1 = (.ok w, f')) :
    f'.disk.read (files.pathFor h) =
      if files.disk.exists? (files.pathFor h) then files.disk.read (files.pathFor h) else .ok b := by
  obtain ⟨rfl, t, hbegins⟩ := begins_of_createPart hpart
  rw [writePart_holding, ByteArray.empty_append] at hcommit
  rcases hbegins.commit_cases hcommit with ⟨-, u, hu, hfree, -, hslash, rfl⟩ | ⟨-, rfl, u, hu, htaken⟩ |
    ⟨⟨x, hx⟩, -⟩
  · rw [Disk.exists?_of_free hu hfree, read_holding hu hslash hfree]
    rfl
  · obtain ⟨p, -, rfl⟩ := target_pathFor hm he hu
    have hthere : files.disk.exists? (files.pathFor h) = true := by
      rcases htaken with hnamed | hsame | hsome
      · cases hnamed
      · exact absurd hsame (hbegins.place_ne hpart hm he p)
      · exact Disk.exists?_of_entry hu rfl hsome
    rw [hthere]
    rfl
  · cases hx

/-- Where a body can have its file, it has it once it is written and committed. -/
theorem Accepts.commit {h : Header} {b : Bytes} (ha : files.Accepts (files.pathFor h) b) (hm : h.Made)
    (he : h.endOfStream = false) :
    ∃ part f w f', files.createPart (files.pathFor h) = (.ok part, f) ∧
      (f.writePart part b).2.commit (f.writePart part b).1 = (.ok w, f') ∧
      f'.disk.read (files.pathFor h) = .ok b := by
  obtain ⟨part, f, hpart⟩ := ha.begins
  obtain ⟨t, ht, hplace⟩ := ha.leads
  obtain ⟨w, f', hcommit⟩ := exists_commit hm he ht hpart b
  refine ⟨part, f, w, f', hpart, hcommit, ?_⟩
  rw [read_of_commit hm he hpart hcommit]
  rcases hplace with hnone | ⟨m, hfile⟩
  · rw [Disk.exists?_of_free ht hnone]
    rfl
  · obtain ⟨p, -, rfl⟩ := target_pathFor hm he ht
    rw [Disk.read_of_resolve ht rfl hfile, ite_self]

end FileStore
end ChunkRelay
