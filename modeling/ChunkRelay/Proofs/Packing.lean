import ChunkRelay.Command.Pack
import ChunkRelay.Proofs.Confinement
import ChunkRelay.Proofs.Intake
import ChunkRelay.Proofs.Piping

/-! Packing a file and unpacking it again. The file comes back with the bytes it had, under its name or under
that of its content, and no other file is made. -/
namespace ChunkRelay

open PacketFeed

/-- Every hash of a header takes room in its record. -/
theorem Header.hashes_le_encode (h : Header) : 32 * h.hashes.length ≤ h.encode.size := by
  simp only [encode, Bytes.concat_cons, Bytes.concat_nil, ByteArray.size_append, Record.hashes, size_concat_hashes]
  omega

namespace Packed

theorem carries_new (d : Disk) (content : Bytes) (input output : Place) (mode : Nat) (size : UInt32) :
    FilePipe.Carries d content input output mode (⟨.ofBytes content, size, 0, false⟩, Sink.empty)
      ⟨⟨d.set output (.file ByteArray.empty mode), input, 0, output, ByteArray.empty⟩, size, 0, false⟩ := by
  have hempty : Sink.empty.grow (ByteArray.empty ++ ByteArray.empty) = Sink.empty := by
    rw [ByteArray.append_empty, Sink.grow_empty]
  have hstart : (Source.ofBytes content).advance 0 = .ofBytes content := rfl
  have hcarries :=
    @FilePipe.Carries.at_ d content input output mode size 0 false 0 ByteArray.empty ByteArray.empty
  rwa [hempty, hstart] at hcarries

theorem transfer_of_write {s : Session (ChunkReader Source)} {d : Disk} {input output : Place}
    {r : Except TransferError Nat} {t : Session (ChunkReader FilePipe)}
    (hwrite : (s.withFeed (s.packets.inner.withSource (⟨d, input, 0, output, ByteArray.empty⟩ : FilePipe))).write =
      (r, t)) : transfer s d input output = (r, t.packets.inner.source.settle.disk) := by
  simp only [transfer, hwrite]

/-- A session that is read from a file goes into another file as it would go to a sink. -/
theorem transfer_of_drains {d : Disk} {content : Bytes} {input output : Place} {m : Nat}
    (hfile : d.entry? input = some (.file content m)) (hne : input ≠ output) (hroot : output ≠ .root) {h : Header}
    {size : UInt32} {q : List Sequence} {v : Verified (ChunkReader Source)}
    (hd : Drains (Verified.new h (⟨.ofBytes content, size, 0, false⟩ : ChunkReader Source)) q v)
    (hh : h.encode.size ≤ Frame.maxLength) (hq : ∀ p ∈ q, p.encode.size ≤ Frame.maxLength) (last : Bool)
    (mode : Nat) :
    ∃ b, Packet.Stream (Session.packetsOf h last q) b ∧
      transfer (Session.withPackets h ⟨.ofBytes content, size, 0, false⟩ last)
        (d.set output (.file ByteArray.empty mode)) input output = (.ok q.length, d.set output (.file b mode)) := by
  obtain ⟨b, hb, hwrite⟩ := Session.writeTo_of_drains hd hh hq (w := Sink.empty) ⟨rfl, rfl⟩ last
  refine ⟨b, hb, ?_⟩
  have halike : Session.Alike (FilePipe.Carries d content input output mode)
      ((Session.withPackets h (⟨.ofBytes content, size, 0, false⟩ : ChunkReader Source) last).withFeed
        (⟨.ofBytes content, size, 0, false⟩, Sink.empty))
      ((Session.withPackets h (⟨.ofBytes content, size, 0, false⟩ : ChunkReader Source) last).withFeed
        ⟨⟨d.set output (.file ByteArray.empty mode), input, 0, output, ByteArray.empty⟩, size, 0, false⟩) :=
    ⟨_, rfl, carries_new d content input output mode size⟩
  rcases (halike.write (FilePipe.mirrors_carries hfile hne hroot)).cases with
    ⟨e, s, t, hs, ht, g, rfl, hcarries⟩ | ⟨n, s, t, hs, ht, g, rfl, hcarries⟩
  · simp only [Session.writeTo, Session.withPackets, Verified.new] at hwrite hs
    simp [hs] at hwrite
  · simp only [Session.writeTo, Session.withPackets, Verified.new] at hwrite hs
    simp only [hs, Prod.mk.injEq, Except.ok.injEq] at hwrite
    obtain ⟨rfl, -, hsink⟩ := hwrite
    rw [transfer_of_write ht]
    generalize s.packets.inner = x at hcarries hsink
    obtain ⟨size', next, done, pos, written, buffer⟩ := hcarries
    have hbytes : written ++ buffer = b := by
      rw [← Sink.accepted_grow_empty (written ++ buffer), ← Sink.accepted_grow_empty b]
      exact congrArg Sink.accepted hsink
    have hsettle := @FilePipe.settle_eq d input output mode written buffer pos
    rw [hbytes] at hsettle
    exact congrArg (fun x => ((.ok q.length, x.disk) : Except TransferError Nat × Disk)) hsettle

variable (settings : Settings) (o : Options) (file : String) (content : Bytes)

/-- The chunk size that a file is packed with. -/
def chunkSize : UInt32 := o.blockSize.getD settings.blockSize

def hashes : List Hash := (Chunk.split content (chunkSize settings o).toNat).map Chunk.hash

/-- The header that a file is packed with. -/
def header : Header :=
  { (draft o (chunkSize settings o) file (hashes settings o content)).header with
    toDisk := Session.storedOnDisk settings.threshold content.size }

/-- The rules are kept, and the header fits a frame. -/
structure Fits : Prop where
  size_ne_zero : chunkSize settings o ≠ 0
  size_le : chunkSize settings o ≤ maxBlockSize
  application_ne : o.application ≠ some ""
  header_le : (header settings o file content).encode.size ≤ Frame.maxLength

variable {settings o file content}

theorem Fits.checkSize (hf : Fits settings o file content) : Chunk.checkSize (chunkSize settings o) = .ok () := by
  rw [Chunk.checkSize, if_neg hf.size_ne_zero, if_neg (UInt32.not_lt.mpr hf.size_le)]

theorem Fits.build_eq (hf : Fits settings o file content) :
    Header.build (draft o (chunkSize settings o) file (hashes settings o content)) =
      .ok (draft o (chunkSize settings o) file (hashes settings o content)).header := by
  have happlication : o.application.getD defaultApplication ≠ "" := by
    cases ho : o.application with
    | none => decide
    | some x => exact fun hx => hf.application_ne (ho.trans (congrArg some hx))
  refine Header.build_of_rules rfl rfl (by simp [draft]) ((Header.validate_eq_ok_iff rfl).mpr ?_)
  exact ⟨hf.size_ne_zero, UInt32.not_lt.mpr hf.size_le, happlication, by simp [Header.Draft.header, draft]⟩

theorem Fits.count_le (hf : Fits settings o file content) :
    Chunk.count content.size (chunkSize settings o).toNat ≤ Chunk.maxCount := by
  have hlength : (header settings o file content).hashes.length =
      Chunk.count content.size (chunkSize settings o).toNat := by
    simp [header, Header.Draft.header, draft, hashes, Chunk.split]
  have hroom := (header settings o file content).hashes_le_encode
  have hfits := Nat.le_trans hroom hf.header_le
  rw [hlength] at hfits
  have hmax : Frame.maxLength ≤ 32 * Chunk.maxCount := by decide
  omega

/-- The header lists the chunks of the file. -/
theorem listed : Listed 0 (hashes settings o content) (Chunk.packets content (chunkSize settings o).toNat) :=
  Chunk.listed_packets_iff.mpr rfl

theorem Fits.chunkHashes_eq (hf : Fits settings o file content) :
    (Source.ofBytes content).chunkHashes (chunkSize settings o) = .ok (hashes settings o content) :=
  (Chunk.chunkHashes_eq_ok_iff hf.checkSize).mpr ⟨hf.count_le, listed⟩

end Packed

variable {settings : Settings} {o : Options} {d d₁ : Disk} {file out : String} {content : Bytes} {output : Place}

/-- The session that a file is packed as. -/
theorem Packed.Fits.session_eq (hf : Packed.Fits settings o file content) (hread : d.read file = .ok content) :
    d.chunkHashes file (Packed.chunkSize settings o) = .ok (Packed.hashes settings o content) ∧
      Session.ofFile (.ofHeader (Packed.draft o (Packed.chunkSize settings o) file
          (Packed.hashes settings o content)).header (.file file)) d file settings.threshold true =
        .ok (.withPackets (Packed.header settings o file content)
          ⟨.ofBytes content, Packed.chunkSize settings o, 0, false⟩ true) := by
  have hopen := Disk.openSource_of_read hread
  refine ⟨by simp [Disk.chunkHashes, hopen, hf.chunkHashes_eq], ?_⟩
  exact Session.ofFile_of_read (Header.sound_of_build hf.build_eq) rfl hread (.file file) settings.threshold true

/-- A file is packed into another one: its header and its chunks are in there. -/
theorem pack_of_read (hf : Packed.Fits settings o file content) (hread : d.read file = .ok content)
    (hcreate : d.create out = .ok (output, d₁)) (hother : ∀ t, d.resolve file = .ok t → t.place ≠ output) :
    ∃ b m, pack settings o d file out =
        (.ok ⟨Chunk.count content.size (Packed.chunkSize settings o).toNat,
          Session.storedOnDisk settings.threshold content.size,
          Hash.contentKey (Packed.hashes settings o content)⟩, d.set output (.file b m)) ∧
      Packet.Stream (Session.packetsOf (Packed.header settings o file content) true
        (Chunk.packets content (Packed.chunkSize settings o).toNat)) b := by
  obtain ⟨t, m, hresolve, -, hentry⟩ := Disk.of_read hread
  obtain ⟨u, mode, -, -, -, hroot, -, rfl⟩ := Disk.of_create hcreate
  have hsize := hf.checkSize
  have hbuild := hf.build_eq
  obtain ⟨hhashes, hsession⟩ := hf.session_eq hread
  obtain ⟨r, hdrains⟩ := ChunkReader.drains_packets hsize hf.count_le
  obtain ⟨b, hb, htransfer⟩ := Packed.transfer_of_drains hentry (hother t hresolve) hroot
    (Verified.drains_of_listed hdrains Packed.listed) hf.header_le (fun p hp => Chunk.encode_le_of_mem_packets hsize hp)
    true mode
  have hlength : (Chunk.packets content (Packed.chunkSize settings o).toNat).length =
      Chunk.count content.size (Packed.chunkSize settings o).toNat := by simp [Chunk.packets, Chunk.split]
  refine ⟨b, mode, ?_, hb⟩
  have hblock : o.blockSize.getD settings.blockSize = Packed.chunkSize settings o := rfl
  simp only [pack, hblock, hhashes, hbuild, hsession, hresolve, hcreate, htransfer, hlength]
  rfl

/-! Unpacking. -/

/-- Whether a step on files failed, and neither the data nor a rule is to blame. -/
def CommandError.isFileFailure : CommandError → Bool
  | .storage e => (TransferError.storage e).isFileFailure
  | .transfer e | .file (.hash _ e) => e.isFileFailure
  | .create .. | .openInput .. | .file (.openFile ..) => true
  | _ => false

theorem FileStore.isFileFailure_of_openAt {d : Disk} {cacheDir userDir : String} {owner : Nat} {e : StorageError}
    {files : FileStore} (h : openAt d cacheDir userDir owner = (.error e, files)) :
    (TransferError.storage e).isFileFailure = true := by
  unfold openAt at h
  split at h
  · cases h
    rfl
  · split at h
    · cases h
      rfl
    · cases h

/-- The tree has one more file, to which the path leads, with these bytes, and otherwise nothing but more
directories. -/
structure Disk.Restores (d d' : Disk) (path : String) (content : Bytes) : Prop extends Disk.Grows d d' where
  read_eq : d'.read path = .ok content
  only : ∃ t, d'.resolve path = .ok t ∧ d.entry? t.place = none ∧
    ∀ p e, d'.entry? p = some e → d.entry? p = some e ∨ e = .directory ∨ p = t.place

theorem Disk.restores_set {d d' : Disk} (hb : Disk.Branches d d') {path : String} {t : Disk.Target}
    (ht : d'.resolve path = .ok t) (hslash : t.slash = false) (hfree : d'.entry? t.place = none) (content : Bytes)
    (m : Nat) : d.Restores (d'.set t.place (.file content m)) path content := by
  have hroot := ne_root_of_free hfree
  have hgrows := grows_set hfree (.file content m)
  have hresolve := hgrows.keepsDirectories.resolve_eq ht
  have hentry := entry?_set hroot d' (.file content m)
  have hnew : d.entry? t.place = none := by
    cases he : d.entry? t.place with
    | none => rfl
    | some e => rw [hb.kept _ _ he] at hfree; cases hfree
  refine ⟨hb.toGrows.trans hgrows, read_of_resolve hresolve hslash ((hentry t.place).trans (if_pos rfl)), t, hresolve,
    hnew, fun p e he => ?_⟩
  rw [hentry] at he
  split at he
  · rename_i hp
    exact .inr (.inr hp)
  · exact (hb.added p e he).imp_right .inl

namespace Packed

variable (settings : Settings) (o : Options) (file : String) (content : Bytes)

/-- The name of the content of a packed file: its key and the extension of the file, as far as it is safe. -/
def storedName : String :=
  let key := (Hash.contentKey (hashes settings o content)).toHex
  let ext := cleanExtension ((Path.extension? file).getD "")
  if ext = "" then key else key ++ "." ++ ext

/-- Whether those who pack a file and those who unpack it both keep it in memory. -/
def Inline (settings : Settings) (content : Bytes) (threshold : Nat) : Prop :=
  content.size ≤ settings.threshold ∧ content.size ≤ threshold

instance inlineDecidable (threshold : Nat) : Decidable (Inline settings content threshold) :=
  inferInstanceAs (Decidable (_ ∧ _))

/-- Where a packed file with this name is once it is unpacked. -/
def destination (threshold : Nat) (dir name : String) : String :=
  if Inline settings content threshold then Path.join (Path.join dir "files") name
  else Path.join (Path.join dir "cache") (storedName settings o file content)

/-- What is told of it. -/
def arrival (threshold : Nat) (dir name : String) : Arrival :=
  if Inline settings content threshold then .inline (Path.join (Path.join dir "files") name) content.size
  else .file (Path.join (Path.join dir "cache") (storedName settings o file content))

variable {settings o file content}

theorem storageName_received : (header settings o file content).received.storageName =
    storedName settings o file content := by
  have hext : ((Path.extension? file).map cleanExtension).getD "" =
      cleanExtension ((Path.extension? file).getD "") := by
    cases Path.extension? file with
    | none => rfl
    | some x => rfl
  have hextension : (header settings o file content).received.extension =
      cleanExtension ((Path.extension? file).getD "") := hext
  have hkey : (header settings o file content).received.contentKey =
      Hash.contentKey (hashes settings o content) := rfl
  have heos : (header settings o file content).received.endOfStream = false := rfl
  simp only [Header.storageName, heos, hextension, hkey, storedName, Bool.false_eq_true, if_false]

end Packed

namespace Unpack

variable {d : Disk} {input dir : String} {threshold owner : Nat} {h : Header} {q : List Sequence} {b : Bytes}

/-- Nothing is in the cache once the directories are made. -/
def Fresh (owner : Nat) (d : Disk) (dir : String) : Prop :=
  ∀ files, FileStore.openAt d (Path.join dir "cache") (Path.join dir "files") owner = (.ok (), files) →
    files.disk.list? (Path.join dir "cache") = some []

/-- An empty directory is fresh, and both directories are made in it. -/
theorem fresh_of_vacant {p : Place} (hd : d.Vacant dir p)
    (hlen : (Path.join dir "cache").utf8ByteSize ≤ Disk.maxPath)
    (hlen' : (Path.join dir "files").utf8ByteSize ≤ Disk.maxPath) : Fresh owner d dir := by
  obtain ⟨hopens, hfree⟩ := FileStore.openAt_of_vacant hd usable_cache usable_files (by decide) hlen hlen' owner
  intro files hopen
  rw [hopens] at hopen
  cases hopen
  have hgrows := Disk.grows_set (hd.empty "cache") .directory
  have hgrows' := Disk.grows_set hfree .directory
  have hentry := Disk.entry?_set (p.child_ne_root "cache") d .directory
  have hentry' := Disk.entry?_set (p.child_ne_root "files") (d.set (p.child "cache") .directory) .directory
  have hresolve := (hgrows.leads hd.toLeads).resolve_join usable_cache hlen
  have hbelow := hd.child_ne "cache"
  refine Disk.list?_eq_some_iff.mpr ⟨_, hgrows'.keepsDirectories.resolve_eq hresolve,
    hgrows'.kept _ _ ((hentry _).trans (if_pos rfl)), List.eq_nil_iff_forall_not_mem.mpr ?_⟩
  rintro ⟨w, e⟩ hmem
  have hnew := Disk.mem_children.mp hmem
  rw [← Disk.entry?_child, hentry', if_neg (fun hp => hbelow (Place.child_inj hp).1), hentry,
    if_neg (fun hp => hbelow (Place.child_inj hp).1), hd.below] at hnew
  cases hnew

theorem ok_of_openAt (hgranted : ∀ e, (unpack threshold owner d input dir).1 = .error e → e.isFileFailure = false) :
    ∃ files, FileStore.openAt d (Path.join dir "cache") (Path.join dir "files") owner = (.ok (), files) := by
  rcases hopen : FileStore.openAt d (Path.join dir "cache") (Path.join dir "files") owner with ⟨e | u, files⟩
  · have herror := hgranted (.storage e) (by simp only [unpack, hopen])
    rw [CommandError.isFileFailure, FileStore.isFileFailure_of_openAt hopen] at herror
    cases herror
  · exact ⟨files, rfl⟩

/-- Where a payload comes out of the batch in memory, its file is made under the name that the header has. -/
theorem restores_of_inline {files : FileStore} (hbranches : Disk.Branches d files.disk) {name : String}
    (hname : Path.fileName? h.filename = some name) (content : Bytes)
    (hgranted : ∀ e, (told h (.ok (.inline content)) files).1 = .error e → e.isFileFailure = false) :
    ∃ d', told h (.ok (.inline content)) files =
        (.ok (), [.inline (Path.join files.userDir name) content.size], d') ∧
      d.Restores d' (Path.join files.userDir name) content := by
  cases hnew : files.disk.createNew (Path.join files.userDir name) with
  | error e =>
    have htold : told h (.ok (.inline content)) files =
        (.error (.create (Path.join files.userDir name) e), [], files.disk) := by
      simp only [told, keep, keepInline, hname, hnew, Except.map]
    rw [htold] at hgranted
    cases hgranted _ rfl
  | ok made =>
    obtain ⟨p, d'⟩ := made
    obtain ⟨t, ht, -, hslash, hfree, rfl, rfl⟩ := Disk.of_createNew hnew
    refine ⟨files.disk.set t.place (.file content Disk.defaultMode), ?_, ?_⟩
    · simp only [told, keep, keepInline, hname, hnew, Except.map, Disk.set_append, ByteArray.empty_append]
      rfl
    · exact Disk.restores_set hbranches ht hslash hfree content _

/-- Where a payload goes into a file, the cache has it under the name of its content. -/
theorem restores_of_file {files f f' : FileStore} (hbranches : Disk.Branches d files.disk)
    (hcache : files.disk.list? files.cacheDir = some []) (hm : h.Made) (he : h.endOfStream = false)
    {part : PartFile} (hpart : files.createPart (files.pathFor h) = (.ok part, f)) {content : Bytes} {w : Commit}
    (hcommit : (f.writePart part content).2.commit (f.writePart part content).1 = (.ok w, f')) :
    d.Restores f'.disk (files.pathFor h) content := by
  have hconsistent := Assembler.consistent_of_empty (a := ⟨.empty, files, 0⟩) rfl hcache
  rcases hconsistent.commit_cases hm he List.not_mem_nil hpart hcommit with
    ⟨-, t, ht, hfree, hslash, rfl⟩ | ⟨⟨e, hfailed⟩, -⟩
  · exact Disk.restores_set hbranches ht hslash hfree content _
  · cases hfailed

/-- What is told of a payload that was taken in, and what that leaves, if no step on files fails. -/
theorem restores_of_keeping {files : FileStore} {c : Assembler MemoryStore} {content : Bytes}
    {r : Except TransferError Outcome} (hkeeping : Assembler.Keeping ⟨.empty, files, threshold⟩ h content r c)
    (hbranches : Disk.Branches d files.disk) (hcache : files.disk.list? files.cacheDir = some []) (hm : h.Made)
    (he : h.endOfStream = false) {name : String} (hname : Path.fileName? h.filename = some name)
    (hgranted : ∀ e, (told h r c.files).1 = .error e → e.isFileFailure = false) :
    (told h r c.files).1 = .ok () ∧
      (((h.toDisk = false ∧ content.size ≤ threshold) ∧
          (told h r c.files).2.1 = [.inline (Path.join files.userDir name) content.size] ∧
            d.Restores (told h r c.files).2.2 (Path.join files.userDir name) content) ∨
        ((h.toDisk = true ∨ threshold < content.size) ∧ (told h r c.files).2.1 = [.file (files.pathFor h)] ∧
          d.Restores (told h r c.files).2.2 (files.pathFor h) content)) := by
  cases hkeeping with
  | inline hdisk hsize =>
    obtain ⟨d', htold, hrestores⟩ := restores_of_inline hbranches hname content hgranted
    simp only [htold]
    exact ⟨trivial, .inl ⟨⟨hdisk, hsize⟩, trivial, hrestores⟩⟩
  | file hbig hpart hcommit => exact ⟨rfl, .inr ⟨hbig, rfl, restores_of_file hbranches hcache hm he hpart hcommit⟩⟩
  | failed _ hx =>
    have hnone := hgranted _ rfl
    rw [CommandError.isFileFailure, hx] at hnone
    cases hnone

end Unpack

variable {threshold owner : Nat} {dir name : String}

/-- A file that is packed into another one comes back out of it, whatever its bytes and its name are and however
much is kept in memory on either side, if no step on files fails. -/
theorem unpack_pack (hf : Packed.Fits settings o file content) (hread : d.read file = .ok content)
    (hname : Path.fileName? file = some name) (hcreate : d.create out = .ok (output, d₁))
    (hother : ∀ t, d.resolve file = .ok t → t.place ≠ output)
    (hfresh : Unpack.Fresh owner (pack settings o d file out).2 dir)
    (hgranted : ∀ e, (unpack threshold owner (pack settings o d file out).2 out dir).1 = .error e →
      e.isFileFailure = false) :
    let packed := pack settings o d file out
    let unpacked := unpack threshold owner packed.2 out dir
    (∃ p, packed.1 = .ok p) ∧ unpacked.1 = .ok () ∧
      unpacked.2.1 = [Packed.arrival settings o file content threshold dir name] ∧
        packed.2.Restores unpacked.2.2 (Packed.destination settings o file content threshold dir name) content := by
  intro packed unpacked
  obtain ⟨b, m, hpack, hb⟩ := pack_of_read hf hread hcreate hother
  obtain ⟨t, mode, hresolve, hslash, hplace, hroot, hdir, -⟩ := Disk.of_create hcreate
  have hkeeps := Disk.keepsDirectories_set hroot hdir (.file b m)
  have hentry : Disk.entry? (d.set output (.file b m)) t.place = some (.file b m) := by
    rw [Disk.entry?_set hroot, if_pos hplace]
  have hbatch := Disk.read_of_resolve (hkeeps.resolve_eq hresolve) hslash hentry
  have hs : (Packed.header settings o file content).Sound := (Header.sound_of_build hf.build_eq).setToDisk _
  have hm : (Packed.header settings o file content).received.Made := .decoded hs.ofRaw_raw
  have hlast : Path.fileName? (Packed.header settings o file content).received.filename = some name := by
    have huser : (Packed.header settings o file content).received.userFilename = some name := hname
    obtain ⟨hdot, hup⟩ := Path.fileName?_ne_dots hname
    rw [Header.filename, huser]
    exact (Path.withFileName_of_plain (Path.plain_of_fileName? hname) hdot hup name).1
  simp only [packed, unpacked, hpack] at hfresh hgranted ⊢
  obtain ⟨files, hopen⟩ := Unpack.ok_of_openAt hgranted
  rw [Session.packetsOf_last rfl] at hb
  obtain ⟨r, c, hkeeping, hunpack⟩ := Unpack.unpack_of_openAt hs.ofRaw_raw rfl Packed.listed hb hbatch hopen threshold
  obtain ⟨hbranches, hcache, huser, -⟩ := FileStore.of_openAt hopen
  have hempty := hfresh files hopen
  rw [← hcache] at hempty
  rw [Chunk.content_packets content (Chunk.pos_of_checkSize hf.checkSize)] at hkeeping
  rw [hunpack] at hgranted ⊢
  obtain ⟨hok, hcases⟩ := Unpack.restores_of_keeping hkeeping hbranches hempty hm rfl hlast hgranted
  refine ⟨⟨_, rfl⟩, hok, ?_⟩
  rw [huser, FileStore.pathFor, hcache, Packed.storageName_received] at hcases
  have hdisk : (Packed.header settings o file content).received.toDisk =
      decide (settings.threshold < content.size) := rfl
  rw [hdisk] at hcases
  rcases hcases with ⟨⟨hshort, hsize⟩, hrestored⟩ | ⟨hlong, hrestored⟩
  · have hinline : Packed.Inline settings content threshold :=
      ⟨Nat.le_of_not_lt (of_decide_eq_false hshort), hsize⟩
    rwa [Packed.arrival, Packed.destination, if_pos hinline, if_pos hinline]
  · have hfile : ¬ Packed.Inline settings content threshold := by
      rintro ⟨hshort, hsize⟩
      rcases hlong with hlong | hlong
      · exact absurd (of_decide_eq_true hlong) (Nat.not_lt.mpr hshort)
      · exact absurd hlong (Nat.not_lt.mpr hsize)
    rwa [Packed.arrival, Packed.destination, if_neg hfile, if_neg hfile]

/-- A short file goes into a batch and out of it into an empty directory. -/
theorem unpack_pack_of_note :
    let d := ((Disk.ofWorkDir ⟨#["node"]⟩).set ⟨#["node", "new"]⟩ .directory).set ⟨#["node", "note"]⟩
      (.file ⟨#[7, 8]⟩ Disk.defaultMode)
    let settings : Settings := ⟨"", "", "", 4, 16⟩
    let packed := pack settings Options.empty d "note" "out"
    let unpacked := unpack 16 0 packed.2 "out" "new"
    unpacked.1 = .ok () ∧
      packed.2.Restores unpacked.2.2
        (Packed.destination settings Options.empty "note" ⟨#[7, 8]⟩ 16 "new" "note") ⟨#[7, 8]⟩ := by
  intro d settings packed unpacked
  have hnew : (Disk.ofWorkDir ⟨#["node"]⟩).FreeName "new" :=
    ⟨⟨by decide, by decide⟩, by decide, by decide, by decide, by decide, by decide⟩
  have hnote : ((Disk.ofWorkDir ⟨#["node"]⟩).set ⟨#["node", "new"]⟩ .directory).FreeName "note" :=
    ⟨⟨by decide, by decide⟩, by decide, by decide, by decide, by decide, by decide⟩
  have hout : d.FreeName "out" := ⟨⟨by decide, by decide⟩, by decide, by decide, by decide, by decide, by decide⟩
  have hgrows := Disk.grows_set hnew.free .directory
  have hgrows' := Disk.grows_set hnote.free (.file ⟨#[7, 8]⟩ Disk.defaultMode)
  have hleads : d.Leads "new" ⟨#["node", "new"]⟩ :=
    ⟨⟨_, (hgrows.trans hgrows').keepsDirectories.resolve_eq hnew.resolve_eq, rfl⟩, by decide⟩
  have hresolve : d.resolve "note" = .ok ⟨⟨#["node", "note"]⟩, true, false⟩ :=
    hgrows'.keepsDirectories.resolve_eq hnote.resolve_eq
  have hfile : d.entry? ⟨#["node", "note"]⟩ = some (.file ⟨#[7, 8]⟩ Disk.defaultMode) := by decide
  have hread := Disk.read_of_resolve hresolve rfl hfile
  have hf : Packed.Fits settings Options.empty "note" ⟨#[7, 8]⟩ :=
    ⟨by decide, by decide, by decide, by decide +kernel⟩
  have hother : ∀ t, d.resolve "note" = .ok t → t.place ≠ d.workDir.child "out" := by
    intro t ht
    cases hresolve.symm.trans ht
    decide
  obtain ⟨b, m, hpack, hb⟩ := pack_of_read hf hread hout.create_eq hother
  have hpacked : packed.2 = d.set (d.workDir.child "out") (.file b m) := congrArg Prod.snd hpack
  have hgrows'' := Disk.grows_set hout.free (.file b m)
  have hvacant : packed.2.Vacant "new" ⟨#["node", "new"]⟩ := by
    rw [hpacked]
    exact (Disk.vacant_of_parents hleads (by decide)).set hout.free (by decide) (by decide) _
  have hbatch : packed.2.read "out" = .ok b := by
    rw [hpacked]
    exact Disk.read_of_resolve (hgrows''.keepsDirectories.resolve_eq hout.resolve_eq) rfl
      ((Disk.entry?_set (d.workDir.child_ne_root "out") d _ _).trans (if_pos rfl))
  have hs : (Packed.header settings Options.empty "note" ⟨#[7, 8]⟩).Sound :=
    (Header.sound_of_build hf.build_eq).setToDisk _
  have hcache : (Path.join "new" "cache").utf8ByteSize ≤ Disk.maxPath := by decide +kernel
  have hfiles : (Path.join "new" "files").utf8ByteSize ≤ Disk.maxPath := by decide +kernel
  have hdest : (Path.join (Path.join "new" "files") "note").utf8ByteSize ≤ Disk.maxPath := by decide +kernel
  have hname : Path.fileName? "note" = some "note" := by decide
  have hlast : Path.fileName? (Packed.header settings Options.empty "note" ⟨#[7, 8]⟩).received.filename =
      some "note" := by decide +kernel
  have husable : Disk.Usable "note" := ⟨⟨by decide, by decide⟩, by decide, by decide, by decide, by decide⟩
  have hsize : (Sequence.content (Chunk.packets ⟨#[7, 8]⟩ 4)).size ≤ 16 := by decide +kernel
  rw [Session.packetsOf_last rfl] at hb
  have hunpack : unpacked = _ :=
    Unpack.unpack_of_vacant hs.ofRaw_raw rfl Packed.listed hb hbatch hvacant hcache hfiles hlast husable hdest rfl
      hsize 0
  have hok : unpacked.1 = .ok () := congrArg Prod.fst hunpack
  have hgranted : ∀ e, unpacked.1 = .error e → e.isFileFailure = false := by
    intro e he
    cases hok.symm.trans he
  obtain ⟨-, -, -, hrestores⟩ := unpack_pack hf hread hname hout.create_eq hother
    (Unpack.fresh_of_vacant hvacant hcache hfiles) hgranted
  exact ⟨hok, hrestores⟩

end ChunkRelay
