import ChunkRelay.Command.Unpack
import ChunkRelay.Proofs.Growth
import ChunkRelay.Proofs.Intake

/-! Unpacking a batch of one session. Its header need not be one that could be built: what counts is what its record
is decoded to. In an empty directory the payload has a place, whatever the header calls it. -/
namespace ChunkRelay

/-- A stream with a packet has bytes. -/
theorem Packet.Stream.size_pos {p : Packet} {l : List Packet} {b : Bytes} (h : Stream (p :: l) b) : 0 < b.size := by
  cases h with
  | @cons _ _ b c hb hl =>
    have hbyte : ByteArray.size ⟨#[p.type.byte]⟩ = 1 := rfl
    rw [ByteArray.size_append, ByteArray.size_append, hbyte]
    omega

namespace Unpack

variable {a c : Assembler MemoryStore}

theorem step_of_taken {i j : Inbox} {h : Header} (hn : i.nextHeader = (.ok (some h), j)) {o : Outcome}
    {s : Session Inbox} (hass : a.assemble (Session.inbound h j) = (.ok o, c, s)) :
    step a i = ((keep c.files h o).1, { c with files := (keep c.files h o).2 }, s.packets.inner) := by
  simp only [step, Assembler.receive, hn, hass]

theorem step_of_refused {i j : Inbox} {h : Header} (hn : i.nextHeader = (.ok (some h), j)) {e : TransferError}
    {s : Session Inbox} (hass : a.assemble (Session.inbound h j) = (.error e, c, s)) :
    step a i = (.error (.transfer e), c, s.packets.inner) := by
  simp only [step, Assembler.receive, hn, hass]

theorem step_of_ended {i j : Inbox} (h : i.nextHeader = (.ok none, j)) : step a i = (.ok none, a, j) := by
  simp only [step, Assembler.receive, h]

/-- What is told of a session that was taken in, if it is the only one. -/
def told (h : Header) : Except TransferError Outcome → FileStore → Except CommandError Unit × List Arrival × Disk
  | .error e, files => (.error (.transfer e), [], files.disk)
  | .ok o, files =>
    match keep files h o with
    | (.error e, files) => (.error e, [], files.disk)
    | (.ok arrival, files) => (.ok (), arrival.toList, files.disk)

variable {h g : Header} {q : List Sequence} {b : Bytes}

/-- A batch of one session is one session to unpack. -/
theorem run_of_stream (hr : Header.ofRaw g.raw = .ok h) (he : h.endOfStream = false) (hq : Listed 0 h.hashes q)
    (hb : Packet.Stream (.header g :: (q.map .sequence ++ [.header Header.terminator])) b)
    (hkey : a.store.messages.get? h.contentKey = none) (hpath : Path.names (a.files.pathFor h) ∉ a.store.paths) :
    ∃ r c, Assembler.Keeping a h (Sequence.content q) r c ∧
      run a (.new (.ofBytes b)) [] (b.size + 1) = told h r c.files := by
  have hi := Inbox.awaits_new (Source.steady_ofBytes b) rfl hb (r := ByteArray.empty) ByteArray.append_empty.symm
  obtain ⟨j, r, c, u, hnext, hass, hkeeping, hrest⟩ := Assembler.keeping_of_awaits hr he hq hi hkey hpath
  refine ⟨r, c, hkeeping, ?_⟩
  obtain ⟨n, hn⟩ := Nat.exists_eq_succ_of_ne_zero (Nat.ne_of_gt hb.size_pos)
  rw [hn, run]
  cases r with
  | error e => rw [step_of_refused hnext hass]; rfl
  | ok o =>
    obtain ⟨i', hend, -⟩ := Inbox.nextHeader_of_terminator (hrest o rfl)
    rw [step_of_taken hnext hass]
    rcases hkeep : keep c.files h o with ⟨e | - | arrival, files⟩
    · simp only [told, hkeep, List.reverse_nil]
    · simp only [told, hkeep, Option.toList, List.reverse_nil]
    · simp only [told, hkeep, run, step_of_ended hend]
      rfl

variable {d : Disk} {input dir : String} {threshold owner : Nat}

/-- Unpacking a batch of one session, once the directories are made. -/
theorem unpack_of_openAt (hr : Header.ofRaw g.raw = .ok h) (he : h.endOfStream = false) (hq : Listed 0 h.hashes q)
    (hb : Packet.Stream (.header g :: (q.map .sequence ++ [.header Header.terminator])) b)
    (hread : d.read input = .ok b) {files : FileStore}
    (hopen : FileStore.openAt d (Path.join dir "cache") (Path.join dir "files") owner = (.ok (), files))
    (threshold : Nat) :
    ∃ r c, Assembler.Keeping ⟨.empty, files, threshold⟩ h (Sequence.content q) r c ∧
      unpack threshold owner d input dir = told h r c.files := by
  obtain ⟨hbranches, -⟩ := FileStore.of_openAt hopen
  have hsource := Disk.openSource_of_read (hbranches.read_eq hread)
  have hpath : Path.names (files.pathFor h) ∉ MemoryStore.empty.paths := List.not_mem_nil
  obtain ⟨r, c, hkeeping, hrun⟩ := run_of_stream (a := ⟨.empty, files, threshold⟩) hr he hq hb rfl hpath
  refine ⟨r, c, hkeeping, ?_⟩
  have hbytes : (Source.ofBytes b).bytes = b := rfl
  simp only [unpack, hopen, hsource, hbytes, hrun]

theorem usable_cache : Disk.Usable "cache" := by decide +kernel

theorem usable_files : Disk.Usable "files" := by decide +kernel

/-- A short payload that is unpacked into an empty directory has its file among the files of the user, under the last
name of what its header calls it. -/
theorem unpack_of_vacant {p : Place} (hr : Header.ofRaw g.raw = .ok h) (he : h.endOfStream = false)
    (hq : Listed 0 h.hashes q) (hb : Packet.Stream (.header g :: (q.map .sequence ++ [.header Header.terminator])) b)
    (hread : d.read input = .ok b) (hd : d.Vacant dir p)
    (hlen : (Path.join dir "cache").utf8ByteSize ≤ Disk.maxPath)
    (hlen' : (Path.join dir "files").utf8ByteSize ≤ Disk.maxPath) {name : String}
    (hname : Path.fileName? h.filename = some name) (hw : Disk.Usable name)
    (hlen'' : (Path.join (Path.join dir "files") name).utf8ByteSize ≤ Disk.maxPath)
    (hdisk : h.toDisk = false) (hsize : (Sequence.content q).size ≤ threshold) (owner : Nat) :
    unpack threshold owner d input dir =
      (.ok (), [.inline (Path.join (Path.join dir "files") name) (Sequence.content q).size],
        ((d.set (p.child "cache") .directory).set (p.child "files") .directory).set ((p.child "files").child name)
          (.file (Sequence.content q) Disk.defaultMode)) := by
  obtain ⟨hopen, hfree⟩ := FileStore.openAt_of_vacant hd usable_cache usable_files (by decide) hlen hlen' owner
  obtain ⟨r, c, hkeeping, hunpack⟩ := unpack_of_openAt hr he hq hb hread hopen threshold
  obtain ⟨rfl, hfiles⟩ := hkeeping.of_short hdisk hsize
  have hleads : Disk.Leads ((d.set (p.child "cache") .directory).set (p.child "files") .directory)
      (Path.join dir "files") (p.child "files") := by
    have hstill := (Disk.grows_set (hd.empty "cache") .directory).leads hd.toLeads
    have hthere := (Disk.grows_set hfree .directory).keepsDirectories.resolve_eq
      (hstill.resolve_join usable_files hlen')
    exact ⟨⟨_, hthere, rfl⟩, (Disk.entry?_set (p.child_ne_root "files") _ _ _).trans (if_pos rfl)⟩
  have hempty : Disk.entry? ((d.set (p.child "cache") .directory).set (p.child "files") .directory)
      ((p.child "files").child name) = none := by
    have hbelow := hd.child_ne "files"
    rw [Disk.entry?_set (p.child_ne_root "files"), if_neg (fun hp => hbelow (Place.child_inj hp).1),
      Disk.entry?_set (p.child_ne_root "cache"), if_neg (fun hp => hbelow (Place.child_inj hp).1), hd.below]
  have hnew := hleads.createNew_join hw hlen'' hempty
  rw [hunpack, hfiles]
  simp only [told, keep, keepInline, hname, hnew, Except.map, Disk.set_append, ByteArray.empty_append]
  rfl

end Unpack
end ChunkRelay
