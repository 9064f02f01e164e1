import ChunkRelay.Proofs.Chunking
import ChunkRelay.Proofs.Parsing
import ChunkRelay.Proofs.Receiving
import ChunkRelay.Proofs.Trees

/-! Sending a message on. Its record keeps all that its header said, and its body is written exactly if its
chunks are those that the header lists. -/
namespace ChunkRelay

open PacketFeed

namespace Header

/-- Where a payload is to be kept takes the same room either way. -/
theorem size_encode_toDisk (h : Header) (d : Bool) :
    ({ h with toDisk := d } : Header).encode.size = h.encode.size := by
  have hflag : ∀ x : Bool, (Record.flag x).size = 1 := fun _ => rfl
  simp only [encode, Bytes.concat_cons, Bytes.concat_nil, ByteArray.size_append, hflag]

variable {h : Header}

theorem Sound.checkSize (hs : h.Sound) (he : h.endOfStream = false) : Chunk.checkSize h.blockSize = .ok () := by
  obtain ⟨hzero, hlarge, -⟩ := (validate_eq_ok_iff he).mp hs.valid
  rw [Chunk.checkSize, if_neg hzero, if_neg hlarge]

/-- The record of a header gives the header back, but for where the payload is to be kept. -/
theorem Sound.build_draft (hs : h.Sound) (he : h.endOfStream = false) (body : Body) (d : Bool) :
    build { (Message.ofHeader h body).draft with toDisk := d } = .ok { h with toDisk := d } := by
  obtain ⟨-, -, -, hsigned⟩ := (validate_eq_ok_iff he).mp hs.valid
  have hheader : ({ (Message.ofHeader h body).draft with toDisk := d } : Draft).header = { h with toDisk := d } := by
    simp [Draft.header, Message.draft, Message.ofHeader, hs.extension_clean, he]
  rw [← hheader]
  refine build_of_rules hs.recipient_ok hs.sender_ok hsigned ?_
  rw [hheader]
  exact hs.valid

end Header

namespace Chunk

/-- The chunks of a body, as packets. -/
def packets (b : Bytes) (size : Nat) : List Sequence := (split b size).map packet

/-- Chunks of a size that keeps the rules fit frames. -/
theorem encode_le_of_mem_packets {b : Bytes} {size : UInt32} (hs : checkSize size = .ok ()) {p : Sequence}
    (hp : p ∈ packets b size.toNat) : p.encode.size ≤ Frame.maxLength := by
  have hsize : size.toNat ≤ maxBlockSize.toNat := by
    unfold checkSize at hs
    split at hs
    · cases hs
    · split at hs
      · cases hs
      · rename_i hlarge
        exact UInt32.not_lt.mp hlarge
  simp only [packets, split, List.map_map, List.mem_map, Function.comp] at hp
  obtain ⟨i, -, rfl⟩ := hp
  have hslice := Bytes.size_slice_le b (i * size.toNat) size.toNat
  have hmax := maxBlockSize_add
  rw [Sequence.size_encode]
  change 13 + (b.slice (i * size.toNat) size.toNat).size ≤ _
  omega

theorem listed_run (b : Bytes) (size k m : Nat) :
    Listed k ((run b size k m).map hash) ((run b size k m).map packet) := by
  induction m generalizing k with
  | zero => exact .nil
  | succ m ih =>
    rw [run_succ]
    exact .cons rfl rfl (ih (k + 1))

/-- The chunks of a body are listed by their hashes and by no others. -/
theorem listed_packets_iff {b : Bytes} {size : Nat} {hashes : List Hash} :
    Listed 0 hashes (packets b size) ↔ hashes = (split b size).map hash := by
  constructor
  · intro hl
    rw [hl.hashes_eq, packets, List.map_map]
    rfl
  · rintro rfl
    rw [packets, split_eq_run]
    exact listed_run b size 0 _

/-- A body has these hashes if it has no more chunks than numbers and they list its chunks. -/
theorem chunkHashes_eq_ok_iff {b : Bytes} {size : UInt32} (hs : checkSize size = .ok ()) {hashes : List Hash} :
    (Source.ofBytes b).chunkHashes size = .ok hashes ↔
      count b.size size.toNat ≤ maxCount ∧ Listed 0 hashes (packets b size.toNat) := by
  have hbytes : (Source.ofBytes b).bytes = b := rfl
  rw [Source.chunkHashes_eq (Source.steady_ofBytes b) rfl hs, hbytes, listed_packets_iff]
  by_cases hcount : count b.size size.toNat ≤ maxCount
  · rw [if_pos hcount, Except.ok.injEq]
    exact ⟨fun h => ⟨hcount, h.symm⟩, fun h => h.2.symm⟩
  · rw [if_neg hcount]
    exact ⟨nofun, fun h => absurd h.1 hcount⟩

theorem content_packets (b : Bytes) {size : Nat} (hs : 0 < size) : Sequence.content (packets b size) = b := by
  have hdata : (packets b size).map Sequence.bytes = (split b size).map data := by
    rw [packets, List.map_map]
    rfl
  rw [Sequence.content, hdata, concat_split b hs]

end Chunk

/-- A reader gives the chunks that are left, one after another. -/
theorem ChunkReader.drains_run {s : Source} (hs : s.Steady) {size : UInt32} (hsize : 0 < size.toNat) {k m : Nat}
    (hp : s.pos = Chunk.offset s.bytes.size size.toNat k) (hm : Chunk.count s.bytes.size size.toNat = k + m)
    (hmax : k + m ≤ Chunk.maxCount) :
    ∃ r, Drains (ChunkReader.mk s size k false) ((Chunk.run s.bytes size.toNat k m).map Chunk.packet) r := by
  induction m generalizing s k with
  | zero =>
    have hend := pull_end hs hsize hp (by omega)
    exact ⟨⟨s.advance (min size.toNat s.rest.size), size, k, true⟩,
      runs_nil_iff.mpr (by simp only [PacketFeed.next, hend, Option.map_none])⟩
  | succ m ih =>
    have hc := pull_chunk hs hsize hp (by omega)
    rw [if_pos (by omega)] at hc
    obtain ⟨r, hr⟩ := ih (hs.advance (min size.toNat s.rest.size)) (Source.pos_advance_chunk hp)
      (by rw [Source.bytes_advance]; omega) (by omega)
    refine ⟨r, ?_⟩
    rw [Chunk.run_succ, List.map_cons]
    exact runs_cons_iff.mpr ⟨_, by simp [PacketFeed.next, hc, Except.map], hr⟩

/-- A reader of a body gives all its chunks. -/
theorem ChunkReader.drains_packets {content : Bytes} {size : UInt32} (hs : Chunk.checkSize size = .ok ())
    (hcount : Chunk.count content.size size.toNat ≤ Chunk.maxCount) :
    ∃ r, Drains (ChunkReader.mk (Source.ofBytes content) size 0 false) (Chunk.packets content size.toNat) r := by
  rw [Chunk.packets, Chunk.split_eq_run]
  exact drains_run (Source.steady_ofBytes content) (Chunk.pos_of_checkSize hs) (Chunk.offset_zero _ _).symm
    (Nat.zero_add _).symm (by rwa [Nat.zero_add])

namespace Session

/-- Sending a body from memory: the header of the message with the chunks of the body. -/
theorem ofBytes_eq_ok_iff {h : Header} (hs : h.Sound) (he : h.endOfStream = false) {body : Body} {content : Bytes}
    {threshold : Nat} {last : Bool} {s : Session (List Delivery)} :
    ofBytes (.ofHeader h body) content threshold last = .ok s ↔
      Chunk.count content.size h.blockSize.toNat ≤ Chunk.maxCount ∧
        s = withPackets { h with toDisk := storedOnDisk threshold content.size }
          ((Chunk.packets content h.blockSize.toNat).map .ok) last := by
  have hsize := hs.checkSize he
  have hbuild := hs.build_draft he body (storedOnDisk threshold content.size)
  have hblock : (Message.ofHeader h body).blockSize = h.blockSize := rfl
  simp only [ofBytes, hblock, Chunk.ofBody_eq hsize]
  by_cases hcount : Chunk.count content.size h.blockSize.toNat ≤ Chunk.maxCount
  · simp only [hcount, if_true, outbound, hbuild, Except.ok.injEq, true_and, Chunk.packets, List.map_map]
    exact eq_comm
  · simp [hcount]

/-- Sending a body from a file: the same header, and a reader of the file. -/
theorem ofFile_of_read {h : Header} (hs : h.Sound) (he : h.endOfStream = false) {d : Disk} {path : String}
    {content : Bytes} (hr : d.read path = .ok content) (body : Body) (threshold : Nat) (last : Bool) :
    ofFile (.ofHeader h body) d path threshold last =
      .ok (withPackets { h with toDisk := storedOnDisk threshold content.size }
        ⟨.ofBytes content, h.blockSize, 0, false⟩ last) := by
  obtain ⟨m, hstat⟩ := Disk.stat_of_read hr
  have hopen := Disk.openSource_of_read hr
  have hblock : (Message.ofHeader h body).blockSize = h.blockSize := rfl
  have hbuild := hs.build_draft he body (storedOnDisk threshold content.size)
  simp only [ofFile, hopen, hstat, ofSource, hblock, ChunkReader.new, hs.checkSize he, Except.map, outbound,
    Entry.length, hbuild]

end Session

/-- The message is sent to the sink with this body, in full. -/
def Message.Sends (m : Message) (content : Bytes) (threshold : Nat) (last : Bool) (w : Sink) : Prop :=
  ∃ s n t w', Session.ofBytes m content threshold last = .ok s ∧ s.writeTo w = (.ok n, t, w')

/-- Packets from a list are written exactly if the header fits a frame and lists them. -/
theorem Session.writeTo_list_iff {h : Header} {q : List Sequence} (hq : ∀ p ∈ q, p.encode.size ≤ Frame.maxLength)
    {w : Sink} (hw : w.Unfailing) (last : Bool) :
    (∃ n t w', (withPackets h (q.map .ok : List Delivery) last).writeTo w = (.ok n, t, w')) ↔
      h.encode.size ≤ Frame.maxLength ∧ Listed 0 h.hashes q := by
  constructor
  · rintro ⟨n, t, w', hwrite⟩
    obtain ⟨l, t', b, hd, -, -, hstream, -⟩ := Outgoing.stream_of_writeTo
      (o := ⟨List Delivery, withPackets h (q.map .ok) last⟩) rfl hw hwrite
    have hv : Drains (Verified.new h (q.map .ok : List Delivery)) l t'.packets := drains_packets hd rfl
    have hl : l = q := eq_of_drains_list (Verified.drains_inner hv rfl)
    have hlisted : Listed 0 h.hashes l := Verified.listed_of_drains hv rfl
    refine ⟨?_, hl ▸ hlisted⟩
    cases hstream with
    | cons hencode _ => exact (Frame.encode_eq_ok_iff.mp (Packet.encode_eq_ok_iff.mp hencode)).1
  · rintro ⟨hle, hlisted⟩
    have hd := Verified.drains_of_listed (drains_list q) hlisted
    obtain ⟨b, -, hwrite⟩ := writeTo_of_drains hd hle hq hw last
    exact ⟨_, _, _, hwrite⟩

/-- A message is sent exactly if its header fits a frame and its body is cut into the chunks that the header
lists. -/
theorem Header.Sound.sends_iff {h : Header} (hs : h.Sound) (he : h.endOfStream = false) {body : Body}
    {content : Bytes} {threshold : Nat} {last : Bool} {w : Sink} (hw : w.Unfailing) :
    (Message.ofHeader h body).Sends content threshold last w ↔
      h.encode.size ≤ Frame.maxLength ∧ (Source.ofBytes content).chunkHashes h.blockSize = .ok h.hashes := by
  have hsize := hs.checkSize he
  have hfits : ∀ p ∈ Chunk.packets content h.blockSize.toNat, p.encode.size ≤ Frame.maxLength :=
    fun p hp => Chunk.encode_le_of_mem_packets hsize hp
  have hwrites := Session.writeTo_list_iff (h := { h with toDisk := Session.storedOnDisk threshold content.size })
    hfits hw last
  rw [h.size_encode_toDisk] at hwrites
  rw [Chunk.chunkHashes_eq_ok_iff hsize]
  constructor
  · rintro ⟨s, n, t, w', hsession, hwrite⟩
    obtain ⟨hcount, rfl⟩ := (Session.ofBytes_eq_ok_iff hs he).mp hsession
    obtain ⟨hle, hlisted⟩ := hwrites.mp ⟨n, t, w', hwrite⟩
    exact ⟨hle, hcount, hlisted⟩
  · rintro ⟨hle, hcount, hlisted⟩
    obtain ⟨n, t, w', hwrite⟩ := hwrites.mpr ⟨hle, hlisted⟩
    exact ⟨_, n, t, w', (Session.ofBytes_eq_ok_iff hs he).mpr ⟨hcount, rfl⟩, hwrite⟩

end ChunkRelay
