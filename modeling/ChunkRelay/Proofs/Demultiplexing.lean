import ChunkRelay.Proofs.Parsing
import ChunkRelay.Proofs.Identities
import ChunkRelay.Proofs.Declarations

/-! Packets of all kinds on one stream. Reading gives back what was written, packet by packet, and takes
for each packet the bytes of that packet alone. -/
namespace ChunkRelay
namespace Packet

/-- The packets that peers make, less the headers that say none by an empty text or signature. -/
inductive Genuine : Packet → Prop
  | header {h : Header} : h.Made → h.mime ≠ "" → h.signature ≠ some ByteArray.empty → Genuine (.header h)
  | sequence (p : Sequence) : Genuine (.sequence p)
  | live {i : Identity} : i.Made → Genuine (.identity (.live i))
  | ended : Genuine (.identity .ended)
  | declare {d : Declaration} : d.Made → Genuine (.declare d)

theorem Genuine.faithful {p : Packet} (hp : p.Genuine) : p.Faithful := by
  cases hp with
  | header hm hmime hsignature => exact faithful_header (hm.sound.canonical hmime hsignature)
  | sequence p => exact faithful_sequence p
  | @live i hm =>
    refine faithful_identity fun j hj => ?_
    rw [← IdentityPacket.live.inj hj]
    exact hm.sound
  | ended => exact faithful_identity fun j hj => by cases hj
  | declare hm => exact faithful_declare hm.sound

/-- What so many reads give, one after another, and how many bytes each takes. -/
def readTimes : Nat → Source → List (Except PacketError Packet × Nat)
  | 0, _ => []
  | n + 1, s =>
    match readTyped s with
    | (r, s') => (r, s'.pos - s.pos) :: readTimes n s'

theorem readTyped_of_end {s : Source} (hs : s.Steady) (h : s.rest = ByteArray.empty) :
    readTyped s = (.error (.framing .truncated), s) := by
  have hsize : s.rest.size = 0 := by rw [h]; rfl
  have hread := Frame.readExact_of_short hs (n := 1) (by omega)
  rw [hsize, Source.advance_zero] at hread
  rw [readTyped, hread]

theorem readTimes_of_end {s : Source} (hs : s.Steady) (h : s.rest = ByteArray.empty) (n : Nat) :
    readTimes n s = List.replicate n (.error (.framing .truncated), 0) := by
  induction n with
  | zero => rfl
  | succ n ih => simp only [readTimes, readTyped_of_end hs h, ih, Nat.sub_self, List.replicate_succ]

/-- Of what a stream holds, the reads take the packets and leave the rest. -/
theorem readTimes_of_stream {l : List Packet} {b r : Bytes} (hl : Stream l b) (hp : ∀ p ∈ l, p.Faithful)
    {s : Source} (hs : s.Steady) (h : s.rest = b ++ r) :
    ∃ s', s'.Steady ∧ s'.rest = r ∧
      ∀ n, readTimes (l.length + n) s = l.map (fun p => (.ok p, p.wireSize)) ++ readTimes n s' := by
  induction hl generalizing s with
  | nil => exact ⟨s, hs, by rwa [ByteArray.empty_append] at h, fun n => by simp⟩
  | @cons p l b c hb _ ih =>
    rw [ByteArray.append_assoc] at h
    obtain ⟨hread, hrest⟩ := readTyped_append hs hb h
    obtain ⟨hfit, -⟩ := Frame.encode_eq_ok_iff.mp (encode_eq_ok_iff.mp hb)
    rw [hp p List.mem_cons_self hfit] at hread
    obtain ⟨s', hs', hr, hreads⟩ := ih (fun q hq => hp q (List.mem_cons_of_mem p hq)) (hs.advance _) hrest
    refine ⟨s', hs', hr, fun n => ?_⟩
    have hlength : (p :: l).length + n = l.length + n + 1 := by simp only [List.length_cons]; omega
    rw [hlength, readTimes, hread]
    simp only [hreads, Source.pos_advance, Nat.add_sub_cancel_left, List.map_cons, List.cons_append]

/-- Packets that fit their frames can all be written to one stream, and reading it gives the same packets
in the same order, each read taking its own packet and nothing else, and then nothing more. -/
theorem readTimes_of_writes {l : List Packet} (hl : ∀ p ∈ l, p.Genuine)
    (hfit : ∀ p ∈ l, p.payload.size ≤ Frame.maxLength) :
    ∃ w, Writes l Sink.empty w ∧ ∀ s : Source, s.Steady → s.pos = 0 → s.bytes = w.accepted →
      ∀ n, readTimes (l.length + n) s =
        l.map (fun p => (.ok p, p.wireSize)) ++ List.replicate n (.error (.framing .truncated), 0) := by
  have hempty : Sink.empty.Unfailing := ⟨rfl, rfl⟩
  obtain ⟨w, hw⟩ := exists_writes hfit hempty
  refine ⟨w, hw, fun s hs hstart hbytes n => ?_⟩
  obtain ⟨b, hb, rfl⟩ := stream_of_writes hempty hw
  have hrest : s.rest = b ++ ByteArray.empty := by
    rw [Source.rest_of_start hstart, hbytes, Sink.accepted_grow_empty, ByteArray.append_empty]
  obtain ⟨s', hs', hend, hreads⟩ := readTimes_of_stream hb (fun p hp => (hl p hp).faithful) hs hrest
  rw [hreads n, readTimes_of_end hs' hend n]

/-- One packet of each kind, with both forms of a chunk and of an identity packet. -/
theorem readTimes_of_each_kind :
    let key : Bytes := ⟨Array.replicate 32 7⟩
    let i : Identity := ⟨"me", SortedMap.empty.insert Identity.reservedKey key, none⟩
    let l : List Packet := [.identity (.live i), .declare (.ofHashes [default]), .header .terminator,
      .sequence (.ofChunk 0 "note".toUTF8), .sequence (.native 1), .declare .none, .identity .ended]
    (∀ p ∈ l, p.Genuine) ∧ (∀ p ∈ l, p.payload.size ≤ Frame.maxLength) ∧
      ∃ w, Writes l Sink.empty w ∧ ∀ s : Source, s.Steady → s.pos = 0 → s.bytes = w.accepted →
        ∀ n, readTimes (l.length + n) s =
          l.map (fun p => (.ok p, p.wireSize)) ++ List.replicate n (.error (.framing .truncated), 0) := by
  intro key i l
  have hl : ∀ p ∈ l, p.Genuine := by
    have hi : i.Made := .created (show Identity.new "me" key = .ok i from rfl)
    simp only [l, List.forall_mem_cons, List.not_mem_nil, false_implies, implies_true, and_true]
    exact ⟨.live hi, .declare (.ofHashes _), .header .terminator (by decide) (by decide), .sequence _,
      .sequence _, .declare .none, .ended⟩
  have hfit : ∀ p ∈ l, p.payload.size ≤ Frame.maxLength := by decide
  exact ⟨hl, hfit, readTimes_of_writes hl hfit⟩

end Packet
end ChunkRelay
