import ChunkRelay.Proofs.Growth
import ChunkRelay.Proofs.PartWriters

/-! Files that a user puts in. A copy that succeeds is one new file with the source's content, and one whose file
cannot be made leaves nothing. But the file is made before the source is opened, and stays when the source cannot be
read: its name is taken from then on, and nothing can be copied in under it. -/
namespace ChunkRelay

namespace Disk

variable {d d' : Disk} {path : String} {p : Place}

/-- Where a file has been made, no new one can be. -/
theorem createNew_of_taken {t : Target} (ht : d.resolve path = .ok t) (hnamed : t.named = true)
    (hslash : t.slash = false) (he : (d.entry? t.place).isSome) : d.createNew path = .error .exists := by
  obtain ⟨htarget, hlong⟩ := resolve_eq_ok_iff.mp ht
  obtain ⟨e, he⟩ := Option.isSome_iff_exists.mp he
  simp [createNew, htarget, hlong, hnamed, hslash, he]

/-- A file that is read while another one is empty is read the same once that has its content. -/
theorem read_filled (hp : p ≠ .root) {b : Bytes} {m : Nat}
    (h : (d.set p (.file ByteArray.empty m)).read path = .ok b) : (d.set p (.file b m)).read path = .ok b := by
  obtain ⟨u, n, hu, hslash, he⟩ := of_read h
  have hsame : SameDirectories (d.set p (.file ByteArray.empty m)) (d.set p (.file b m)) := by
    refine ⟨rfl, fun q => ?_⟩
    rw [entry?_set hp, entry?_set hp]
    split
    · simp
    · rfl
  rw [entry?_set hp] at he
  by_cases hq : u.place = p
  · -- the file is read into itself, and there is nothing in it
    rw [if_pos hq] at he
    cases he
    exact read_of_resolve hu hslash (by rw [entry?_set hp, if_pos hq])
  · rw [if_neg hq] at he
    exact read_of_resolve (hsame.resolve_eq hu) hslash (by rw [entry?_set hp, if_neg hq, he])

end Disk

namespace FileStore

variable {files f : FileStore} {source name dest : String} {r : Except StorageError String} {t : Disk.Target}

/-- What copying a file in may come to on a disk that may refuse any step: it goes as `copyIn` has it, the file cannot
be made, or it is made and the source cannot be opened, or no more than some of it comes through, or all of it does and
is not brought to the disk for good. -/
inductive Copies (files : FileStore) (source name : String) : Except StorageError String → FileStore → Prop
  | granted {r : Except StorageError String} {f : FileStore} : files.copyIn source name = (r, f) →
      Copies files source name r f
  | unmade {last : String} (x : IoError) : Path.fileName? name = some last →
      Copies files source name (.error (.create (Path.join files.userDir last) x)) files
  | unopened {last : String} {p : Place} {d : Disk} (x : IoError) : Path.fileName? name = some last →
      files.disk.createNew (Path.join files.userDir last) = .ok (p, d) →
      Copies files source name (.error (.openFile source x)) { files with disk := d }
  | cut {last : String} {p : Place} {d : Disk} {written rest : Bytes} (x : IoError) : Path.fileName? name = some last →
      files.disk.createNew (Path.join files.userDir last) = .ok (p, d) → d.read source = .ok (written ++ rest) →
      Copies files source name (.error (.copy (Path.join files.userDir last) x))
        { files with disk := d.append p written }
  | unsynced {last : String} {p : Place} {d : Disk} {b : Bytes} (x : StorageError) : Path.fileName? name = some last →
      files.disk.createNew (Path.join files.userDir last) = .ok (p, d) → d.read source = .ok b →
      Copies files source name (.error x) { files with disk := d.append p b }

/-- What is left of copying a file in. -/
inductive Lands (files : FileStore) (source name : String) : Except StorageError String → FileStore → Prop
  /-- A new file under the last name of `name`, with the content that the source has and had before. -/
  | copied {last : String} {t : Disk.Target} {b : Bytes} {f : FileStore} : Path.fileName? name = some last →
      files.disk.resolve (Path.join files.userDir last) = .ok t → files.disk.Absent t →
      files.disk.Changed t.place (some (.file b Disk.defaultMode)) f.disk →
      f.disk.read (Path.join files.userDir last) = .ok b → f.disk.read source = .ok b →
      (∀ c, files.disk.read source = .ok c → c = b) → Lands files source name (.ok (Path.join files.userDir last)) f
  | nothing {cause : StorageError} : Lands files source name (.error cause) files
  /-- A new file with as much as was written, whose name is taken from then on. -/
  | remains {last : String} {t : Disk.Target} {written : Bytes} {cause : StorageError} {f : FileStore} :
      Path.fileName? name = some last → files.disk.resolve (Path.join files.userDir last) = .ok t →
      files.disk.Absent t → files.disk.Changed t.place (some (.file written Disk.defaultMode)) f.disk →
      (∀ other, f.copyIn other name = (.error (.create (Path.join files.userDir last) .exists), f)) →
      Lands files source name (.error cause) f

/-- The new file can be made. -/
def Makes (files : FileStore) (name : String) (p : Place) (d : Disk) : Prop :=
  ∃ last, Path.fileName? name = some last ∧ files.disk.createNew (Path.join files.userDir last) = .ok (p, d)

/-- Once the file is made, it is what is read of the source that decides. -/
theorem copyIn_of_makes {last : String} {p : Place} {d : Disk} (hname : Path.fileName? name = some last)
    (hnew : files.disk.createNew (Path.join files.userDir last) = .ok (p, d)) (source : String) :
    (∃ b, d.read source = .ok b ∧ files.copyIn source name =
      (.ok (Path.join files.userDir last), { files with disk := d.append p b })) ∨
    ((∀ b, d.read source ≠ .ok b) ∧ ∃ cause, files.copyIn source name = (.error cause, { files with disk := d })) := by
  simp only [copyIn, hname, hnew]
  cases hopen : d.openSource source with
  | error x =>
    refine .inr ⟨fun b hb => ?_, _, rfl⟩
    cases hopen.symm.trans (Disk.openSource_of_read hb)
  | ok s =>
    cases hread : d.read source with
    | error x => exact .inr ⟨nofun, _, rfl⟩
    | ok b => exact .inl ⟨b, rfl, rfl⟩

/-- Where the file cannot be made, nothing is done. -/
theorem copyIn_of_not_makes (h : ∀ p d, ¬ files.Makes name p d) (source : String) :
    ∃ cause, files.copyIn source name = (.error cause, files) := by
  unfold copyIn
  split
  · exact ⟨_, rfl⟩
  · rename_i last hname
    simp only
    split
    · exact ⟨_, rfl⟩
    · rename_i p d hnew
      exact absurd ⟨last, hname, hnew⟩ (h p d)

/-- A file that has been made keeps its name from being used again. -/
theorem copyIn_of_taken (files : FileStore) {last : String} (hname : Path.fileName? name = some last)
    (ht : files.disk.resolve (Path.join files.userDir last) = .ok t) (hnamed : t.named = true) (hslash : t.slash = false)
    (he : (files.disk.entry? t.place).isSome) (source : String) :
    files.copyIn source name = (.error (.create (Path.join files.userDir last) .exists), files) := by
  simp only [copyIn, hname, Disk.createNew_of_taken ht hnamed hslash he]

/-- A new file with whatever was written to it before the copy was given up. -/
theorem lands_of_set {last : String} (hname : Path.fileName? name = some last)
    (ht : files.disk.resolve (Path.join files.userDir last) = .ok t) (habsent : files.disk.Absent t) (written : Bytes)
    (cause : StorageError) : Lands files source name (.error cause) (files.holding t.place written) := by
  obtain ⟨hnamed, hslash, hfree⟩ := habsent
  have hchanged := Disk.changed_set (d := files.disk) (Disk.ne_root_of_free hfree) (.file written Disk.defaultMode)
  have ht' := (Disk.grows_set hfree (.file written Disk.defaultMode)).keepsDirectories.resolve_eq ht
  exact .remains hname ht ⟨hnamed, hslash, hfree⟩ hchanged (copyIn_of_taken (files.holding t.place written)
    hname ht' hnamed hslash (Option.isSome_of_eq_some hchanged.entry?_self))

theorem lands_of_copied {last : String} (hname : Path.fileName? name = some last)
    (ht : files.disk.resolve (Path.join files.userDir last) = .ok t) (habsent : files.disk.Absent t) {b : Bytes}
    (hread : Disk.read (files.disk.set t.place (.file ByteArray.empty Disk.defaultMode)) source = .ok b) :
    Lands files source name (.ok (Path.join files.userDir last)) (files.holding t.place b) := by
  have hroot := Disk.ne_root_of_free habsent.2.2
  have hgrows := Disk.grows_set habsent.2.2 (.file ByteArray.empty Disk.defaultMode)
  have ht' := (Disk.grows_set habsent.2.2 (.file b Disk.defaultMode)).keepsDirectories.resolve_eq ht
  have hchanged := Disk.changed_set (d := files.disk) hroot (.file b Disk.defaultMode)
  refine .copied hname ht habsent hchanged (Disk.read_of_resolve ht' habsent.2.1 hchanged.entry?_self)
    (Disk.read_filled hroot hread) fun c hc => ?_
  exact Except.ok.inj ((hgrows.read_eq hc).symm.trans hread)

/-- A new file that could be made, and what was then written to it. -/
theorem absent_of_createNew {path : String} {p : Place} {d : Disk} (hnew : files.disk.createNew path = .ok (p, d)) :
    ∃ t, files.disk.resolve path = .ok t ∧ files.disk.Absent t ∧ t.place = p ∧
      d = files.disk.set p (.file ByteArray.empty Disk.defaultMode) ∧
      ∀ b, { files with disk := d.append p b } = files.holding p b := by
  obtain ⟨t, ht, hnamed, hslash, hfree, hplace, rfl⟩ := Disk.of_createNew hnew
  refine ⟨t, ht, ⟨hnamed, hslash, hplace ▸ hfree⟩, hplace, rfl, fun b => ?_⟩
  rw [Disk.set_append, ByteArray.empty_append]
  rfl

theorem Copies.lands (h : files.Copies source name r f) : files.Lands source name r f := by
  cases h with
  | granted hcopy =>
    by_cases hmakes : ∃ p d, files.Makes name p d
    · obtain ⟨p, d, last, hname, hnew⟩ := hmakes
      obtain ⟨t, ht, habsent, rfl, rfl, hdisk⟩ := absent_of_createNew hnew
      rcases copyIn_of_makes hname hnew source with ⟨b, hread, heq⟩ | ⟨-, cause, heq⟩
      · cases hcopy.symm.trans heq
        rw [hdisk]
        exact lands_of_copied hname ht habsent hread
      · cases hcopy.symm.trans heq
        exact lands_of_set hname ht habsent ByteArray.empty cause
    · simp only [not_exists] at hmakes
      obtain ⟨cause, heq⟩ := copyIn_of_not_makes hmakes source
      cases hcopy.symm.trans heq
      exact .nothing
  | unmade x hname => exact .nothing
  | unopened x hname hnew =>
    obtain ⟨t, ht, habsent, rfl, rfl, -⟩ := absent_of_createNew hnew
    exact lands_of_set hname ht habsent ByteArray.empty _
  | cut x hname hnew hread | unsynced x hname hnew hread =>
    obtain ⟨t, ht, habsent, rfl, -, hdisk⟩ := absent_of_createNew hnew
    rw [hdisk]
    exact lands_of_set hname ht habsent _ _

/-- Copying a file in makes one new file with the source's content, or leaves nothing, or leaves a file in the way of
every further try. If the disk refuses nothing, the last comes about exactly where the file can be made and the source
cannot be read. -/
theorem copies_land (files : FileStore) (source name : String) :
    (∀ r f, files.Copies source name r f → files.Lands source name r f) ∧
    (((∃ cause, (files.copyIn source name).1 = .error cause) ∧ (files.copyIn source name).2.disk ≠ files.disk) ↔
      ∃ p d, files.Makes name p d ∧ ∀ b, d.read source ≠ .ok b) := by
  refine ⟨fun r f h => h.lands, ?_⟩
  constructor
  · rintro ⟨⟨cause, hfails⟩, hmoved⟩
    by_cases hmakes : ∃ p d, files.Makes name p d
    · obtain ⟨p, d, last, hname, hnew⟩ := hmakes
      rcases copyIn_of_makes hname hnew source with ⟨b, -, heq⟩ | ⟨hread, -⟩
      · rw [heq] at hfails
        cases hfails
      · exact ⟨p, d, ⟨last, hname, hnew⟩, hread⟩
    · simp only [not_exists] at hmakes
      obtain ⟨cause, heq⟩ := copyIn_of_not_makes hmakes source
      rw [heq] at hmoved
      exact absurd rfl hmoved
  · rintro ⟨p, d, ⟨last, hname, hnew⟩, hread⟩
    rcases copyIn_of_makes hname hnew source with ⟨b, hb, -⟩ | ⟨-, cause, heq⟩
    · exact absurd hb (hread b)
    · rw [heq]
      obtain ⟨t, -, habsent, rfl, rfl, -⟩ := absent_of_createNew hnew
      refine ⟨⟨cause, rfl⟩, fun hsame => ?_⟩
      have hentry := (Disk.changed_set (d := files.disk) (Disk.ne_root_of_free habsent.2.2)
        (.file ByteArray.empty Disk.defaultMode)).entry?_self
      have hsame : files.disk.set t.place (.file ByteArray.empty Disk.defaultMode) = files.disk := hsame
      rw [hsame, habsent.2.2] at hentry
      cases hentry

/-- A working directory with one file in it, in which a user keeps files. -/
def deskFiles : FileStore :=
  let d := Disk.ofWorkDir ⟨#["desk"]⟩
  ⟨d.set (d.workDir.child "notes") (.file ⟨#[7, 8]⟩ Disk.defaultMode), ".", ".", 0, 0⟩

theorem freeName_photo : deskFiles.disk.FreeName "photo" := by decide +kernel

theorem createNew_photo : deskFiles.disk.createNew (Path.join deskFiles.userDir "photo") =
    .ok (deskFiles.disk.workDir.child "photo",
      deskFiles.disk.set (deskFiles.disk.workDir.child "photo") (.file ByteArray.empty Disk.defaultMode)) := by
  have hplace := freeName_photo.target_join_dot
  have hdir : deskFiles.userDir = "." := rfl
  simp [Disk.createNew, hdir, hplace, freeName_photo.not_tooLong, freeName_photo.free]

theorem fileName?_photo : Path.fileName? "photo" = some "photo" := by decide

/-- A file that is there is copied in. -/
theorem lands_of_notes : ∃ f, deskFiles.Copies "notes" "photo" (.ok (Path.join "." "photo")) f ∧
    deskFiles.Lands "notes" "photo" (.ok (Path.join "." "photo")) f := by
  have hread : Disk.read (deskFiles.disk.set (deskFiles.disk.workDir.child "photo")
      (.file ByteArray.empty Disk.defaultMode)) "notes" = .ok ⟨#[7, 8]⟩ := by
    have hnotes : (Disk.ofWorkDir ⟨#["desk"]⟩).FreeName "notes" :=
      ⟨⟨by decide, by decide⟩, by decide, by decide, by decide, by decide, by decide +kernel⟩
    exact (Disk.grows_set freeName_photo.free _).read_eq (hnotes.read_set ⟨#[7, 8]⟩ Disk.defaultMode)
  rcases copyIn_of_makes fileName?_photo createNew_photo "notes" with ⟨b, -, heq⟩ | ⟨hnone, -⟩
  · exact ⟨_, .granted heq, (copies_land deskFiles "notes" "photo").1 _ _ (.granted heq)⟩
  · exact absurd hread (hnone _)

/-- A file that is not there leaves an empty one behind, and its name is taken. -/
theorem remains_of_missing_source :
    let tried := deskFiles.copyIn "gone" "photo"
    (∃ cause, tried.1 = .error cause) ∧ deskFiles.disk.entry? (deskFiles.disk.workDir.child "photo") = none ∧
      tried.2.disk.entry? (deskFiles.disk.workDir.child "photo") = some (.file ByteArray.empty Disk.defaultMode) ∧
      (tried.2.copyIn "notes" "photo").1 = .error (.create (Path.join "." "photo") .exists) := by
  intro tried
  have hentry := Disk.entry?_set (deskFiles.disk.workDir.child_ne_root "photo") deskFiles.disk
    (.file ByteArray.empty Disk.defaultMode)
  have hgone : Disk.FreeName (deskFiles.disk.set (deskFiles.disk.workDir.child "photo")
      (.file ByteArray.empty Disk.defaultMode)) "gone" :=
    ⟨⟨by decide, by decide⟩, by decide, by decide, by decide, by decide, by decide +kernel⟩
  rcases copyIn_of_makes fileName?_photo createNew_photo "gone" with ⟨b, hread, -⟩ | ⟨-, cause, heq⟩
  · obtain ⟨u, m, hu, -, he⟩ := Disk.of_read hread
    obtain rfl : u = _ := Except.ok.inj (hu.symm.trans hgone.resolve_eq)
    exact absurd he (by rw [hgone.free]; simp)
  · have hplace := (Disk.grows_set freeName_photo.free (.file ByteArray.empty Disk.defaultMode)).keepsDirectories.resolve_eq
      (Disk.resolve_eq_ok_iff.mpr ⟨freeName_photo.target_join_dot, freeName_photo.not_tooLong⟩)
    have hself := (hentry (deskFiles.disk.workDir.child "photo")).trans (if_pos rfl)
    have hretry := copyIn_of_taken { deskFiles with disk := deskFiles.disk.set _ _ } fileName?_photo hplace
      rfl rfl (Option.isSome_of_eq_some hself) "notes"
    refine ⟨⟨cause, congrArg Prod.fst heq⟩, freeName_photo.free, ?_, ?_⟩
    · show (deskFiles.copyIn "gone" "photo").2.disk.entry? _ = _
      rw [heq]
      exact hself
    · show ((deskFiles.copyIn "gone" "photo").2.copyIn "notes" "photo").1 = _
      rw [heq]
      exact congrArg Prod.fst hretry

end FileStore
end ChunkRelay
