import ChunkRelay.Proofs.Normalisation
import ChunkRelay.Proofs.Outbound
import ChunkRelay.Proofs.Refusals

/-! Headers that no frame holds. A header lists the hash of every chunk, so it grows with the body, and with every text
that it carries. What is built keeps the rules for block sizes, under which every chunk fits a frame; the header is not
looked at before it is sent. -/
namespace ChunkRelay

open PacketFeed

namespace Header

/-- The bytes that a header takes: those of its words, its flags and the lengths of what varies, and what varies. -/
def extent (h : Header) : Nat :=
  67 + (Fingerprint.toWire h.recipient).size + (Fingerprint.toWire h.sender).size + h.application.utf8ByteSize +
    (h.signature.getD ByteArray.empty).size + h.mime.utf8ByteSize + h.extension.utf8ByteSize +
    (h.userFilename.elim 0 fun name => 8 + name.utf8ByteSize) + 32 * h.chunkCount

theorem size_encode (h : Header) : h.encode.size = h.extent := by
  have hflag (x : Bool) : (Record.flag x).size = 1 := rfl
  have hword (x : UInt32) : (Record.word x).size = 4 := rfl
  have htext (s : String) : (Record.text s).size = 8 + s.utf8ByteSize := Record.size_blob _
  have hname : (Record.optional Record.text h.userFilename).size =
      1 + h.userFilename.elim 0 fun name => 8 + name.utf8ByteSize := by
    cases h.userFilename with
    | none => rfl
    | some name => rw [Record.optional, ByteArray.size_append, htext, hflag]; rfl
  simp only [encode, Bytes.concat_cons, Bytes.concat_nil, ByteArray.size_append, ByteArray.size_empty, Record.size_blob,
    htext, hname, hflag, hword, Record.hashes, Record.size_length, size_concat_hashes, extent, chunkCount]
  omega

end Header

namespace Session

variable {φ : Type} [PacketFeed φ]

/-- A session whose header fits no frame is not sent. -/
theorem writeTo_of_not_fits {s : Session φ} (hs : (Packet.header s.header).fits = false) {w : Sink} (hw : w.Unfailing) :
    (s.writeTo w).1 = .error (.packet (.framing (.tooLarge s.header.encode.size))) := by
  have hhead := Packet.writeTyped_eq hw (.header s.header)
  rw [Packet.encode_of_not_fits hs] at hhead
  have honto : s.withFeed (s.packets.inner, w) = s.onto w := rfl
  simp only [writeTo, honto, write, header_onto, writePacket_eq, hhead, mapError_error]
  rfl

/-- A session with a body in memory has the header of the message and the chunks of the body. -/
theorem of_ofBytes {m : Message} {body : Bytes} {threshold : Nat} {last : Bool} {s : Session (List Delivery)}
    (hs : ofBytes m body threshold last = .ok s) :
    Chunk.checkSize m.blockSize = .ok () ∧
      s = withPackets { m.draft.header with toDisk := storedOnDisk threshold body.size }
        ((Chunk.packets body m.blockSize.toNat).map .ok) last := by
  unfold ofBytes at hs
  split at hs
  · cases hs
  · rename_i chunks hchunks
    have hsize : Chunk.checkSize m.blockSize = .ok () := by
      unfold Chunk.ofBody BodyReader.new at hchunks
      split at hchunks
      · cases hchunks
      · assumption
    rw [Chunk.ofBody_eq hsize] at hchunks
    split at hchunks
    · cases hchunks
      unfold outbound at hs
      split at hs
      · cases hs
      · rename_i h hbuild
        cases hs
        obtain ⟨rfl, -⟩ := Header.of_build hbuild
        refine ⟨hsize, ?_⟩
        rw [Chunk.packets, List.map_map]
        rfl
    · cases hchunks

theorem size_of_ofBytes {m : Message} {body : Bytes} {threshold : Nat} {last : Bool} {s : Session (List Delivery)}
    (hs : ofBytes m body threshold last = .ok s) : s.header.encode.size = m.draft.header.extent := by
  obtain ⟨-, rfl⟩ := of_ofBytes hs
  exact (Header.size_encode_toDisk _ _).trans (Header.size_encode _)

/-- A session that is built for a body and the hashes of its chunks is sent in full to a writer that takes everything,
if its header fits a frame. If it does not, the length of the header is what the session fails for. Nothing else can
keep the session from being sent. -/
theorem writeTo_of_ofBytes {m : Message} {body : Bytes} {threshold : Nat} {last : Bool} {s : Session (List Delivery)}
    (hs : ofBytes m body threshold last = .ok s)
    (hhashes : (Chunk.ofBody body m.blockSize).map (List.map Chunk.hash) = .ok m.hashes) {w : Sink}
    (hw : w.Unfailing) :
    (s.writeTo w).1 =
      if m.draft.header.extent ≤ Frame.maxLength then .ok s.header.chunkCount
      else .error (.packet (.framing (.tooLarge m.draft.header.extent))) := by
  have hextent := size_of_ofBytes hs
  by_cases hfits : m.draft.header.extent ≤ Frame.maxLength
  · obtain ⟨hsize, rfl⟩ := of_ofBytes hs
    have hlisted : Listed 0 m.hashes (Chunk.packets body m.blockSize.toNat) := by
      rw [Chunk.ofBody_eq hsize] at hhashes
      split at hhashes
      · exact Chunk.listed_packets_iff.mpr (Except.ok.inj hhashes).symm
      · cases hhashes
    have hdrains := Verified.drains_of_listed (drains_list _) hlisted
    have hheader : (Header.encode { m.draft.header with toDisk := storedOnDisk threshold body.size }).size ≤
        Frame.maxLength := Nat.le_trans (Nat.le_of_eq hextent) hfits
    obtain ⟨b, -, hwrite⟩ := writeTo_of_drains
      (h := { m.draft.header with toDisk := storedOnDisk threshold body.size }) hdrains hheader
      (fun p hp => Chunk.encode_le_of_mem_packets hsize hp) hw last
    rw [if_pos hfits, hwrite]
    exact congrArg Except.ok hlisted.length_eq.symm
  · have hlarge : (Packet.header s.header).fits = false := decide_eq_false (by rwa [← hextent] at hfits)
    rw [if_neg hfits, ← hextent]
    exact writeTo_of_not_fits hlarge hw

/-! Bodies in chunks of one byte. -/

/-- A message with nothing but a body, of which every byte is a chunk. -/
def bytewise (body : Bytes) : Message :=
  .ofHeader { Header.terminator with
    application := "chat", blockSize := 1, endOfStream := false, hashes := (Chunk.split body 1).map Chunk.hash }
    (.inline body)

theorem count_bytewise (n : Nat) : Chunk.count n (UInt32.toNat 1) = n := by simp [Chunk.count]

theorem ofBody_bytewise {body : Bytes} (hbody : body.size ≤ Chunk.maxCount) :
    (Chunk.ofBody body (bytewise body).blockSize).map (List.map Chunk.hash) = .ok (bytewise body).hashes := by
  rw [show (bytewise body).blockSize = 1 from rfl, Chunk.ofBody_eq rfl, count_bytewise, if_pos hbody]
  rfl

theorem ofBytes_bytewise {body : Bytes} (hbody : body.size ≤ Chunk.maxCount) (threshold : Nat) (last : Bool) :
    ∃ s, ofBytes (bytewise body) body threshold last = .ok s := by
  have hsound (hashes : List Hash) : Header.Sound { Header.terminator with
      application := "chat", blockSize := 1, endOfStream := false, hashes } :=
    Header.sound_of_build (d := { application := some "chat", blockSize := some 1, hashes }) rfl
  exact ⟨_, (ofBytes_eq_ok_iff (hsound _) rfl).mpr ⟨by rwa [count_bytewise], rfl⟩⟩

theorem extent_bytewise (body : Bytes) : (bytewise body).draft.header.extent = 97 + 32 * body.size := by
  have hcount : (bytewise body).draft.header.chunkCount = body.size := by
    have hsplit : ((Chunk.split body 1).map Chunk.hash).length = body.size := by
      rw [List.length_map, Chunk.split, List.length_map, List.length_range]
      exact count_bytewise body.size
    exact hsplit
  rw [Header.extent, hcount]
  rfl

/-- One byte is sent. -/
theorem writeTo_of_ofBytes_of_byte :
    let body : Bytes := ⟨#[7]⟩
    (Chunk.ofBody body (bytewise body).blockSize).map (List.map Chunk.hash) = .ok (bytewise body).hashes ∧
      Sink.empty.Unfailing ∧ (bytewise body).draft.header.extent = 129 ∧
      ∃ s, ofBytes (bytewise body) body 0 true = .ok s ∧ (s.writeTo Sink.empty).1 = .ok s.header.chunkCount := by
  intro body
  have hbody : body.size ≤ Chunk.maxCount := by decide
  have hhashes := ofBody_bytewise hbody
  have hextent : (bytewise body).draft.header.extent = 129 := extent_bytewise body
  have hempty : Sink.empty.Unfailing := ⟨rfl, rfl⟩
  obtain ⟨s, hs⟩ := ofBytes_bytewise hbody 0 true
  refine ⟨hhashes, hempty, hextent, s, hs, ?_⟩
  rw [writeTo_of_ofBytes hs hhashes hempty, hextent]
  rfl

/-- Half a million of them are accepted as a message, and its header fits no frame. -/
theorem tooLarge_of_many_bytes :
    let body : Bytes := ⟨Array.replicate 524288 7⟩
    (Chunk.ofBody body (bytewise body).blockSize).map (List.map Chunk.hash) = .ok (bytewise body).hashes ∧
      ∃ s, ofBytes (bytewise body) body 0 true = .ok s ∧
        ∀ w : Sink, w.Unfailing → (s.writeTo w).1 = .error (.packet (.framing (.tooLarge 16777313))) := by
  intro body
  have hsize : body.size = 524288 := Array.size_replicate
  have hbody : body.size ≤ Chunk.maxCount := by
    rw [hsize]
    decide
  obtain ⟨s, hs⟩ := ofBytes_bytewise hbody 0 true
  refine ⟨ofBody_bytewise hbody, s, hs, fun w hw => ?_⟩
  have hextent : s.header.encode.size = 16777313 := by
    rw [size_of_ofBytes hs, extent_bytewise, hsize]
  have hlarge : (Packet.header s.header).fits = false := by
    rw [Packet.fits, Packet.payload, hextent]
    decide
  rw [writeTo_of_not_fits hlarge hw, hextent]

end Session
end ChunkRelay
