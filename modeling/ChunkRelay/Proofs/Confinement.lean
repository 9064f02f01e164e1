import ChunkRelay.Proofs.Parsing
import ChunkRelay.Proofs.Rollback
import ChunkRelay.Proofs.Unpacking

/-! What unpacking leaves on a disk. Names and extensions come from whoever wrote the batch, and still every
file that is made lies in one of the two directories, and what was there before is as it was. -/
namespace ChunkRelay

namespace Path

theorem fileName?_ne_dots {p w : String} (h : fileName? p = some w) : w ≠ "." ∧ w ≠ ".." := by
  unfold fileName? at h
  split at h
  · cases h
  · split at h
    · cases h
    · rename_i hblank
      cases h
      constructor <;> rintro rfl <;> simp [isBlank] at hblank

end Path

namespace Inbox

variable {i j : Inbox} {h : Header}

theorem made_of_readHeader (hr : i.readHeader = (.ok (some h), j)) : h.Made ∧ h.endOfStream = false := by
  unfold readHeader at hr
  split at hr
  · rename_i g s hread
    split at hr
    · cases hr
    · rename_i he
      cases hr
      obtain ⟨r, hraw⟩ := Packet.exists_raw_of_readTyped hread
      exact ⟨.decoded hraw, by simpa using he⟩
  · cases hr
  · cases hr

/-- Whatever the bytes are, a session begins with a header that was decoded. -/
theorem made_of_nextHeader (hn : i.nextHeader = (.ok (some h), j)) : h.Made ∧ h.endOfStream = false := by
  unfold nextHeader at hn
  split at hn
  · cases hn
  · split at hn
    · cases hn
    · split at hn
      · cases hn
      · exact made_of_readHeader hn

end Inbox

namespace FileStore

variable {files f f' : FileStore} {path : String} {part : PartFile}

/-- A store whose files are as they were, but for one more at most, at the place to which the path led. -/
structure Gains (files : FileStore) (path : String) (f : FileStore) : Prop where
  cacheDir_eq : f.cacheDir = files.cacheDir
  userDir_eq : f.userDir = files.userDir
  disk_eq : f.disk = files.disk ∨ ∃ t b, files.disk.target path = .ok t ∧ files.disk.entry? t.place = none ∧
    f.disk = files.disk.set t.place (.file b Disk.defaultMode)

theorem Gains.refl (files : FileStore) (path : String) : files.Gains path files := ⟨rfl, rfl, .inl rfl⟩

theorem gains_spent (files : FileStore) (path : String) : files.Gains path files.spent := ⟨rfl, rfl, .inl rfl⟩

theorem gains_holding {t : Disk.Target} (ht : files.disk.resolve path = .ok t)
    (hfree : files.disk.entry? t.place = none) (b : Bytes) : files.Gains path (files.spent.holding t.place b) :=
  ⟨rfl, rfl, .inr ⟨t, b, (Disk.resolve_eq_ok_iff.mp ht).1, hfree, rfl⟩⟩

theorem gains_dropPart (hpart : files.createPart path = (.ok part, f)) (b : Bytes) :
    files.Gains path ((f.writePart part b).2.dropPart (f.writePart part b).1) := by
  obtain ⟨rfl, t, hbegins⟩ := begins_of_createPart hpart
  rw [writePart_holding, hbegins.dropPart_eq]
  exact gains_spent files path

theorem gains_commit (hpart : files.createPart path = (.ok part, f)) {b : Bytes} {r : Except StorageError Commit}
    (hcommit : (f.writePart part b).2.commit (f.writePart part b).1 = (r, f')) : files.Gains path f' := by
  obtain ⟨rfl, t, hbegins⟩ := begins_of_createPart hpart
  rw [writePart_holding] at hcommit
  rcases hbegins.commit_cases hcommit with ⟨-, u, hu, hfree, -, -, rfl⟩ | ⟨-, rfl, -⟩ | ⟨-, rfl, -⟩
  · exact gains_holding hu hfree _
  · exact gains_spent files path
  · exact gains_spent files path

end FileStore

namespace Assembler

variable {σ δ : Type} [PacketFeed σ] [Datastore δ] {a b c : Assembler δ} {h : Header}
  {r : Except TransferError Outcome}

theorem files_of_isKnown {k : Hash} {p : String} {r : Except TransferError Bool} (hk : a.isKnown k p = (r, b)) :
    b.files = a.files := by
  unfold isKnown at hk
  split at hk
  · cases hk
    rfl
  · cases hk
    rfl
  · split at hk <;> cases hk <;> rfl

theorem files_of_persistInline {content : Bytes} (hp : a.persistInline h content = (r, b)) : b.files = a.files := by
  unfold persistInline at hp
  split at hp <;> cases hp <;> rfl

/-- Recording a committed file leaves it where it is or takes it back. -/
theorem gains_persistFile {part : PartFile} {files f f' : FileStore} {path : String}
    (hpart : files.createPart path = (.ok part, f)) {d : Bytes} {w : Commit}
    (hcommit : (f.writePart part d).2.commit (f.writePart part d).1 = (.ok w, f'))
    (hp : { a with files := f' }.persistFile h path w = (r, b)) : files.Gains path b.files := by
  unfold persistFile at hp
  split at hp
  · cases hp
    exact FileStore.gains_commit hpart hcommit
  · cases hp
    exact FileStore.gains_commit hpart hcommit
  · simp only [FileStore.withdraw_committed hpart hcommit] at hp
    cases hp
    exact FileStore.gains_spent _ _

/-- Whatever way a session is taken in, there is one more file at most, where its content has its place. -/
theorem gains_of_takes {l : List Sequence} {e : Option TransferError} {s : SessionState}
    (ht : Takes a h l e r b s) : a.files.Gains (a.files.pathFor h) b.files := by
  cases ht with
  | ending he => exact .refl _ _
  | unanswered he hk =>
    rw [files_of_isKnown hk]
    exact .refl _ _
  | known he hk =>
    rw [files_of_isKnown hk]
    exact .refl _ _
  | incomplete he hk hx hdisk hsize =>
    rw [files_of_isKnown hk]
    exact .refl _ _
  | inline he hk hx hdisk hsize hp =>
    rw [files_of_persistInline hp, files_of_isKnown hk]
    exact .refl _ _
  | refused he hk hbig hpart =>
    rw [files_of_isKnown hk] at hpart
    rw [FileStore.createPart_error hpart]
    exact FileStore.gains_spent _ _
  | cut he hk hx hbig hpart =>
    rw [files_of_isKnown hk] at hpart
    exact FileStore.gains_dropPart hpart _
  | uncommitted he hk hx hbig hpart hcommit =>
    rw [files_of_isKnown hk] at hpart
    exact FileStore.gains_commit hpart hcommit
  | file he hk hx hbig hpart hcommit hp =>
    rw [files_of_isKnown hk] at hpart
    exact gains_persistFile hpart hcommit hp

/-- The same holds on a disk that may refuse any step. -/
theorem gains_of_attempts {packets : σ} (ht : Attempts a (Session.inbound h packets) r b) :
    a.files.Gains (a.files.pathFor h) b.files := by
  cases ht with
  | granted hass =>
    obtain ⟨l, e, v, hr⟩ := Verified.exists_runs (Verified.new h packets) rfl
    exact gains_of_takes (takes_assemble a hr h.endOfStream _ _ _ hass)
  | unmade x hk =>
    have hfiles := files_of_isKnown hk
    simp only [hfiles]
    exact FileStore.gains_spent _ _
  | givenUp written x hk hpart =>
    rw [files_of_isKnown hk] at hpart
    exact FileStore.gains_dropPart hpart written

end Assembler

namespace Disk

variable {d d' d'' : Disk} {dir : String} {p q : Place}

/-- Where unpacking puts a file: right in the cache, under the name of a content, or right among the files of
the user, under the last name of what a header calls it. -/
inductive Placed (d : Disk) (dir : String) : Place → Prop
  | cached {p : Place} {h : Header} : d.Leads (Path.join dir "cache") p → h.Made → h.endOfStream = false →
      Placed d dir (p.child h.storageName)
  | named {p : Place} {h : Header} {w : String} : d.Leads (Path.join dir "files") p → h.Made →
      Path.fileName? h.filename = some w → Placed d dir (p.child w)

theorem Grows.placed (hg : Grows d d') (hp : d.Placed dir p) : d'.Placed dir p := by
  cases hp with
  | cached hl hm he => exact .cached (hg.leads hl) hm he
  | named hl hm hw => exact .named (hg.leads hl) hm hw

/-- Everything is as it was but for new directories and new files, the files lie right in one of the two
directories, and none of them is a part file. -/
structure Confined (dir : String) (d d' : Disk) : Prop extends Grows d d' where
  placed : ∀ p b m, d'.entry? p = some (.file b m) → d.entry? p = some (.file b m) ∨ d'.Placed dir p
  no_part : ∀ (files : FileStore) (name : String) (p : Place) (b : Bytes) (m : Nat),
    d'.Leads (Path.join dir "cache") p → d'.entry? (p.child (files.partName name)) = some (.file b m) →
      d.entry? (p.child (files.partName name)) = some (.file b m)

/-- The two directories are not the same one. -/
theorem Leads.cache_ne_files (hp : d.Leads (Path.join dir "cache") p) (hq : d.Leads (Path.join dir "files") q) :
    p ≠ q := by
  rintro rfl
  have hcache := hp.name?_eq ⟨by decide, by decide⟩ (by decide) (by decide)
  have hfiles := hq.name?_eq ⟨by decide, by decide⟩ (by decide) (by decide)
  exact absurd (Option.some.inj (hcache.symm.trans hfiles)) (by decide)

/-- No place for a file is that of a part file. -/
theorem Placed.ne_part (hp : d.Placed dir q) (hl : d.Leads (Path.join dir "cache") p) (files : FileStore)
    (name : String) : q ≠ p.child (files.partName name) := by
  intro hq
  cases hp with
  | cached hl' hm he =>
    obtain ⟨l, hpart⟩ := FileStore.toList_partName files name
    exact Header.storageName_ne he hm.clean hpart rfl (Place.child_inj hq).2
  | named hl' hm hw => exact hl.cache_ne_files hl' (Place.child_inj hq).1.symm

theorem confined_of_placed (hg : Grows d d')
    (hp : ∀ p b m, d'.entry? p = some (.file b m) → d.entry? p = some (.file b m) ∨ d'.Placed dir p) :
    Confined dir d d' := by
  refine ⟨hg, hp, fun files name p b m hl he => ?_⟩
  rcases hp _ b m he with hold | hplaced
  · exact hold
  · exact absurd rfl (hplaced.ne_part hl files name)

/-- New directories are no files. -/
theorem Branches.confined (hb : Branches d d') (dir : String) : Confined dir d d' := by
  refine confined_of_placed hb.toGrows fun p b m he => ?_
  rcases hb.added p _ he with hold | hdir
  · exact .inl hold
  · cases hdir

/-- One more file at a place for files. -/
theorem Confined.set (hc : Confined dir d d') (hfree : d'.entry? q = none) (hq : d'.Placed dir q) (b : Bytes)
    (m : Nat) : Confined dir d (d'.set q (.file b m)) := by
  have hg := grows_set hfree (.file b m)
  refine confined_of_placed (hc.toGrows.trans hg) fun p c n he => ?_
  rw [entry?_set (ne_root_of_free hfree)] at he
  split at he
  · rename_i hp
    rw [hp]
    exact .inr (hg.placed hq)
  · exact (hc.placed p c n he).imp_right hg.placed

end Disk

namespace Unpack

variable {a b c : Assembler MemoryStore} {d : Disk} {dir : String}

/-- One step on a disk that may refuse any: a session is taken in or given up, or the file for an inline
payload is made, with as much in it as was written. -/
inductive Step (a : Assembler MemoryStore) : Assembler MemoryStore → Prop
  | session {h : Header} {i : Inbox} {r : Except TransferError Outcome} {b : Assembler MemoryStore} :
      h.Made → h.endOfStream = false → Assembler.Attempts a (Session.inbound h i) r b → Step a b
  | inline {h : Header} {w : String} {p : Place} {d : Disk} (written : Bytes) : h.Made →
      Path.fileName? h.filename = some w → a.files.disk.createNew (Path.join a.files.userDir w) = .ok (p, d) →
      Step a { a with files := { a.files with disk := d.append p written } }

/-- Steps one after another. -/
inductive Reaches : Assembler MemoryStore → Assembler MemoryStore → Prop
  | refl {a : Assembler MemoryStore} : Reaches a a
  | step {a b c : Assembler MemoryStore} : Step a b → Reaches b c → Reaches a c

theorem Reaches.trans (hab : Reaches a b) (hbc : Reaches b c) : Reaches a c := by
  induction hab with
  | refl => exact hbc
  | step hs _ ih => exact .step hs (ih hbc)

/-- A run has kept to its directory so far, and works in it. -/
structure Keeps (dir : String) (d : Disk) (a : Assembler MemoryStore) : Prop where
  cacheDir_eq : a.files.cacheDir = Path.join dir "cache"
  userDir_eq : a.files.userDir = Path.join dir "files"
  cache : ∃ p, a.files.disk.Leads (Path.join dir "cache") p
  user : ∃ p, a.files.disk.Leads (Path.join dir "files") p
  confined : d.Confined dir a.files.disk

theorem Keeps.gains (hk : Keeps dir d a) {path : String} (hg : a.files.Gains path b.files)
    (hplaced : ∀ t, a.files.disk.target path = .ok t → a.files.disk.Placed dir t.place) : Keeps dir d b := by
  have hcacheDir := hg.cacheDir_eq.trans hk.cacheDir_eq
  have huserDir := hg.userDir_eq.trans hk.userDir_eq
  obtain ⟨p, hp⟩ := hk.cache
  obtain ⟨q, hq⟩ := hk.user
  rcases hg.disk_eq with hdisk | ⟨t, content, ht, hfree, hdisk⟩
  · exact ⟨hcacheDir, huserDir, ⟨p, hdisk ▸ hp⟩, ⟨q, hdisk ▸ hq⟩, hdisk ▸ hk.confined⟩
  · have hgrows := Disk.grows_set hfree (.file content Disk.defaultMode)
    refine ⟨hcacheDir, huserDir, ⟨p, ?_⟩, ⟨q, ?_⟩, ?_⟩ <;> rw [hdisk]
    · exact hgrows.leads hp
    · exact hgrows.leads hq
    · exact hk.confined.set hfree (hplaced t ht) _ _

/-- One step keeps to the directory. -/
theorem Keeps.step (hk : Keeps dir d a) (hs : Step a b) : Keeps dir d b := by
  obtain ⟨p, hp⟩ := hk.cache
  obtain ⟨q, hq⟩ := hk.user
  cases hs with
  | @session h i r b hm he ht =>
    refine hk.gains (Assembler.gains_of_attempts ht) fun t htarget => ?_
    obtain ⟨hplain, hdot, hup⟩ := hm.plain he
    rw [FileStore.pathFor, hk.cacheDir_eq] at htarget
    rw [hp.target_join hplain hdot hup htarget]
    exact .cached hp hm he
  | @inline h w place d written hm hw hnew =>
    obtain ⟨u, hu, -, -, hfree, rfl, rfl⟩ := Disk.of_createNew hnew
    have hgains : a.files.Gains (Path.join a.files.userDir w)
        { a.files with disk :=
            (a.files.disk.set u.place (.file ByteArray.empty Disk.defaultMode)).append u.place written } := by
      refine ⟨rfl, rfl, .inr ⟨u, ByteArray.empty ++ written, (Disk.resolve_eq_ok_iff.mp hu).1, hfree, ?_⟩⟩
      exact Disk.set_append ..
    refine hk.gains hgains fun t htarget => ?_
    obtain ⟨hdot, hup⟩ := Path.fileName?_ne_dots hw
    rw [hk.userDir_eq] at htarget
    rw [hq.target_join (Path.plain_of_fileName? hw) hdot hup htarget]
    exact .named hq hm hw

theorem Keeps.reaches (hk : Keeps dir d a) (hr : Reaches a b) : Keeps dir d b := by
  induction hr with
  | refl => exact hk
  | step hs _ ih => exact ih (hk.step hs)

/-- Of what sessions turn into, only an inline payload has its file still to be made. -/
theorem reaches_keep {h : Header} (hm : h.Made) (o : Outcome) :
    Reaches a { a with files := (keep a.files h o).2 } := by
  cases o with
  | inline content =>
    simp only [keep, keepInline]
    split
    · exact .refl
    · rename_i w hw
      split
      · exact .refl
      · rename_i p d hnew
        exact .step (.inline content hm hw hnew) .refl
  | file path => exact .refl
  | duplicate => exact .refl
  | endOfStream => exact .refl

/-- Taking in a session and storing what it turned into are such steps. -/
theorem reaches_step (a : Assembler MemoryStore) (i : Inbox) : Reaches a (step a i).2.1 := by
  rcases hn : i.nextHeader with ⟨e | h?, j⟩
  · simp only [step, Assembler.receive, hn]
    exact .refl
  · cases h? with
    | none =>
      simp only [step, Assembler.receive, hn]
      exact .refl
    | some h =>
      obtain ⟨hm, he⟩ := Inbox.made_of_nextHeader hn
      rcases hass : a.assemble (Session.inbound h j) with ⟨e | o, b, s⟩
      · rw [step_of_refused hn hass]
        exact .step (.session hm he (.granted hass)) .refl
      · rw [step_of_taken hn hass]
        exact .step (.session hm he (.granted hass)) (reaches_keep hm o)

theorem reaches_run (a : Assembler MemoryStore) (i : Inbox) (acc : List Arrival) (fuel : Nat) :
    ∃ b, Reaches a b ∧ (run a i acc fuel).2.2 = b.files.disk := by
  induction fuel generalizing a i acc with
  | zero => exact ⟨a, .refl, rfl⟩
  | succ fuel ih =>
    have hstep := reaches_step a i
    rw [run]
    rcases hs : step a i with ⟨e | - | arrival, b, j⟩ <;> rw [hs] at hstep
    · exact ⟨b, hstep, rfl⟩
    · exact ⟨b, hstep, rfl⟩
    · obtain ⟨c, hc, hdisk⟩ := ih b j (arrival :: acc)
      exact ⟨c, hstep.trans hc, hdisk⟩

/-- What unpacking may leave on a disk that may refuse any step: what `unpack` leaves, some of the directories,
or both directories and what steps on any sessions have made in them. -/
inductive Leaves (threshold owner : Nat) (d : Disk) (input dir : String) : Disk → Prop
  | granted : Leaves threshold owner d input dir (unpack threshold owner d input dir).2.2
  | noCache (n : Nat) : Leaves threshold owner d input dir (d.halfMade (Path.join dir "cache") n)
  | noFiles {d₁ : Disk} (n : Nat) : d.makeDirectories (Path.join dir "cache") = (.ok (), d₁) →
      Leaves threshold owner d input dir (d₁.halfMade (Path.join dir "files") n)
  | stopped {files : FileStore} {a : Assembler MemoryStore} :
      FileStore.openAt d (Path.join dir "cache") (Path.join dir "files") owner = (.ok (), files) →
      Reaches ⟨.empty, files, threshold⟩ a → Leaves threshold owner d input dir a.files.disk

theorem keeps_of_openAt {files : FileStore} {owner : Nat}
    (hopen : FileStore.openAt d (Path.join dir "cache") (Path.join dir "files") owner = (.ok (), files))
    (s : MemoryStore) (threshold : Nat) : Keeps dir d ⟨s, files, threshold⟩ := by
  obtain ⟨hbranches, hcache, huser, hleads⟩ := FileStore.of_openAt hopen
  obtain ⟨p, q, hp, hq⟩ := hleads rfl (Path.join_ne_empty ⟨by decide, by decide⟩ dir)
    (Path.join_ne_empty ⟨by decide, by decide⟩ dir)
  exact ⟨hcache, huser, ⟨p, hp⟩, ⟨q, hq⟩, hbranches.confined dir⟩

theorem confined_unpack (threshold owner : Nat) (d : Disk) (input dir : String) :
    d.Confined dir (unpack threshold owner d input dir).2.2 := by
  unfold unpack
  rcases hopen : FileStore.openAt d (Path.join dir "cache") (Path.join dir "files") owner with ⟨e | u, files⟩
  · exact (FileStore.of_openAt hopen).1.confined dir
  · have hkeeps := keeps_of_openAt hopen .empty threshold
    cases hsource : files.disk.openSource input with
    | error e =>
      simp only [hsource]
      exact hkeeps.confined
    | ok source =>
      obtain ⟨b, hreaches, hdisk⟩ := reaches_run ⟨.empty, files, threshold⟩ (.new source) [] (source.bytes.size + 1)
      simp only [hsource, hdisk]
      exact (hkeeps.reaches hreaches).confined

/-- Whatever is unpacked, and wherever it stops, every file that it leaves lies right in the cache or among
the files of the user, nothing that was there is changed or gone, and no part file is left. -/
theorem confined_of_leaves {threshold owner : Nat} {d d' : Disk} {input dir : String}
    (hl : Leaves threshold owner d input dir d') : d.Confined dir d' := by
  cases hl with
  | granted => exact confined_unpack threshold owner d input dir
  | noCache n => exact (Disk.branches_makeAlong ..).confined dir
  | @noFiles d₁ n hcache =>
    have hbranches := Disk.branches_makeDirectories d (Path.join dir "cache")
    rw [hcache] at hbranches
    exact (hbranches.trans (Disk.branches_makeAlong ..)).confined dir
  | stopped hopen hreaches => exact ((keeps_of_openAt hopen _ _).reaches hreaches).confined

/-- A header as no one builds it: its names lead elsewhere. -/
def hostile : Header :=
  { Header.terminator with
    application := "chat", blockSize := 4, endOfStream := false, extension := "/../../sh"
    userFilename := some "../../evil", hashes := [Hash.chunk 0 ⟨#[7, 8]⟩] }

/-- What its record is decoded to. -/
def tamed : Header := { hostile with extension := "sh" }

theorem ofRaw_hostile : Header.ofRaw hostile.raw = .ok tamed := rfl

/-- A working directory with an empty directory in it. -/
def deskWithDirectory : Disk := (Disk.ofWorkDir ⟨#["node"]⟩).set ⟨#["node", "new"]⟩ .directory

/-- And with a file of these bytes beside that. -/
def deskWithInput (b : Bytes) : Disk := deskWithDirectory.set ⟨#["node", "in"]⟩ (.file b Disk.defaultMode)

theorem freeName_in : deskWithDirectory.FreeName "in" := by decide +kernel

theorem read_deskWithInput (b : Bytes) : (deskWithInput b).read "in" = .ok b := freeName_in.read_set b Disk.defaultMode

theorem vacant_deskWithInput (b : Bytes) : (deskWithInput b).Vacant "new" ⟨#["node", "new"]⟩ := by
  have hnew : (Disk.ofWorkDir ⟨#["node"]⟩).FreeName "new" := by decide +kernel
  have hgrows := Disk.grows_set hnew.free .directory
  have hleads : deskWithDirectory.Leads "new" ⟨#["node", "new"]⟩ :=
    ⟨⟨_, hgrows.keepsDirectories.resolve_eq hnew.resolve_eq, rfl⟩, by decide⟩
  exact (Disk.vacant_of_parents hleads (by decide)).set freeName_in.free (by decide) (by decide) _

/-- A batch of one message with such names. Its payload is kept, under the last of them and where it may be. -/
theorem confined_of_hostile_batch :
    ∃ b, Packet.Stream [.header hostile, .sequence (.ofChunk 0 ⟨#[7, 8]⟩), .header Header.terminator] b ∧
      let d := deskWithInput b
      let d' := (unpack 16 0 d "in" "new").2.2
      Leaves 16 0 d "in" "new" d' ∧ d.Confined "new" d' ∧
        d'.entry? ⟨#["node", "new", "files", "evil"]⟩ = some (.file ⟨#[7, 8]⟩ Disk.defaultMode) := by
  have hlisted : Listed 0 tamed.hashes [.ofChunk 0 ⟨#[7, 8]⟩] := .cons rfl rfl .nil
  have hdrains : PacketFeed.Drains (Verified.new hostile ([.ok (.ofChunk 0 ⟨#[7, 8]⟩)] : List Delivery))
      [.ofChunk 0 ⟨#[7, 8]⟩] _ := Verified.drains_of_listed (PacketFeed.drains_list _) hlisted
  obtain ⟨b, hb, -⟩ := Session.writeTo_of_drains hdrains (by decide +kernel) (by decide +kernel) (w := Sink.empty)
    ⟨rfl, rfl⟩ true
  refine ⟨b, hb, ?_⟩
  intro d d'
  have hleaves : Leaves 16 0 d "in" "new" d' := .granted
  have hname : Path.fileName? tamed.filename = some "evil" := by decide +kernel
  have hsize : (Sequence.content [.ofChunk 0 ⟨#[7, 8]⟩]).size ≤ 16 := by decide
  have hunpack : unpack 16 0 d "in" "new" = _ := unpack_of_vacant ofRaw_hostile rfl hlisted hb (read_deskWithInput b)
    (vacant_deskWithInput b) (by decide +kernel) (by decide +kernel) hname (by decide +kernel) (by decide +kernel) rfl
    hsize 0
  refine ⟨hleaves, confined_of_leaves hleaves, ?_⟩
  have hdisk : d' = _ := congrArg (·.2.2) hunpack
  rw [hdisk]
  exact (Disk.entry?_set (Place.child_ne_root _ _) _ _ _).trans (if_pos rfl)

end Unpack
end ChunkRelay
