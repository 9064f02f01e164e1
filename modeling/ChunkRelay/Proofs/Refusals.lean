import ChunkRelay.Proofs.Demultiplexing

/-! Packets that no frame holds, among others on one stream. A packet is refused after its type byte has gone
out, and the byte stays. So what was written before it is read back, and with it reading loses its place: the
byte is taken for the type of whatever stands behind it. -/
namespace ChunkRelay

/-- A byte in front of a small word moves it one place up. -/
theorem Bytes.append_ofUInt32LE {t : UInt8} {n : Nat} (hn : n < 16777216) :
    (⟨#[t]⟩ : Bytes) ++ ofUInt32LE (UInt32.ofNat n) = ofUInt32LE (UInt32.ofNat (t.toNat + 256 * n)) ++ ⟨#[0]⟩ := by
  have ht := t.toNat_lt
  apply ByteArray.ext
  apply Array.toList_inj.mp
  simp only [ofUInt32LE, ByteArray.data_append, Array.toList_append, List.cons_append, List.nil_append,
    List.cons.injEq, and_true, ← UInt8.toNat_inj]
  simp [Nat.shiftRight_eq_div_pow]
  omega

/-- A frame is not read whose length is more than what stands behind it. -/
theorem Frame.read_of_short {s : Source} (hs : s.Steady) {w : UInt32} {r : Bytes}
    (h : s.rest = Bytes.ofUInt32LE w ++ r) (hr : r.size < w.toNat) : ∃ e s', Frame.read s = (.error e, s') := by
  obtain ⟨head, hhead, hlen, hrest⟩ := readExact_word hs h
  by_cases hlarge : w.toNat > maxLength
  · exact ⟨.tooLarge w.toNat, s.advance 4, by simp only [Frame.read, hhead, hlen, if_pos hlarge]⟩
  · have hshort := readExact_of_short (hs.advance 4) (n := w.toNat) (by rw [hrest]; exact hr)
    exact ⟨.truncated, _, by simp only [Frame.read, hhead, hlen, if_neg hlarge, hshort]; rfl⟩

namespace Packet

/-- A packet that a frame holds. -/
def fits (p : Packet) : Bool := decide (p.payload.size ≤ Frame.maxLength)

/-- What trying to write a packet leaves on a stream: its type byte, and its frame if it has one. -/
def trace (p : Packet) : Bytes :=
  match p.encode with
  | .ok b => ⟨#[p.type.byte]⟩ ++ b
  | .error _ => ⟨#[p.type.byte]⟩

theorem encode_of_not_fits {p : Packet} (h : p.fits = false) :
    p.encode = .error (.framing (.tooLarge p.payload.size)) := by
  have hlarge : p.payload.size > Frame.maxLength := Nat.lt_of_not_le (of_decide_eq_false h)
  rw [encode, Frame.encode, if_pos hlarge, mapError_error]

theorem trace_of_encode {p : Packet} {b : Bytes} (h : p.encode = .ok b) : p.trace = ⟨#[p.type.byte]⟩ ++ b := by
  rw [trace, h]

theorem trace_of_not_fits {p : Packet} (h : p.fits = false) : p.trace = ⟨#[p.type.byte]⟩ := by
  rw [trace, encode_of_not_fits h]

section Writers

variable {σ : Type} [ByteSink σ]

/-- Tries to write packets one after another, whatever has become of those before. -/
def tries : List Packet → σ → List (Except PacketError Unit) × σ
  | [], s => ([], s)
  | p :: l, s =>
    let (r, s) := p.writeTyped s
    let (rs, s) := tries l s
    (r :: rs, s)

/-- A failure of the writer is no refusal of the packet. -/
theorem push_ne_tooLarge {b : Bytes} {s s' : σ} {n : Nat} : push b s ≠ (.error (.framing (.tooLarge n)), s') := by
  unfold push Frame.push
  cases ByteSink.push b s with
  | mk r t => cases r <;> simp

theorem push_eq_ok_iff {b : Bytes} {s s' : σ} : push b s = (.ok (), s') ↔ ByteSink.push b s = (.ok (), s') := by
  unfold push Frame.push
  cases ByteSink.push b s with
  | mk r t => cases r <;> simp

/-- Whatever the writer, a packet is refused for its size after its type byte has been accepted, and nothing
else goes out. -/
theorem writeTyped_eq_tooLarge_iff {p : Packet} {s s' : σ} {n : Nat} :
    p.writeTyped s = (.error (.framing (.tooLarge n)), s') ↔
      p.fits = false ∧ n = p.payload.size ∧ ByteSink.push ⟨#[p.type.byte]⟩ s = (.ok (), s') := by
  rw [← push_eq_ok_iff]
  unfold writeTyped
  cases hpush : push (⟨#[p.type.byte]⟩ : Bytes) s with
  | mk r t =>
    cases r with
    | error e =>
      have hne : e ≠ .framing (.tooLarge n) := by
        rintro rfl
        exact push_ne_tooLarge hpush
      simp [hne]
    | ok u =>
      cases hfits : p.fits with
      | false => simp [encode_of_not_fits hfits, eq_comm]
      | true =>
        obtain ⟨b, hb⟩ := encode_of_le (of_decide_eq_true hfits)
        simp [hb, push_ne_tooLarge]

end Writers

/-- On a sink that takes everything each packet leaves its trace and fails only if it does not fit a frame. -/
theorem tries_eq {w : Sink} (hw : w.Unfailing) (l : List Packet) :
    tries l w = (l.map fun p => p.encode.map fun _ => (), w.grow (Bytes.concat (l.map trace))) := by
  induction l generalizing w with
  | nil => simp [tries]
  | cons p l ih =>
    have hp : p.writeTyped w = (p.encode.map fun _ => (), w.grow p.trace) := by
      rw [writeTyped_eq hw, trace]
      cases p.encode <;> rfl
    simp only [tries, hp, ih (hw.grow _), Sink.grow_grow, List.map_cons, Bytes.concat_cons]

/-- The traces of packets that fit are the packets on a stream. -/
theorem stream_of_fits {l : List Packet} (h : ∀ p ∈ l, p.fits = true) : Stream l (Bytes.concat (l.map trace)) := by
  induction l with
  | nil => exact .nil
  | cons p l ih =>
    obtain ⟨b, hb⟩ := encode_of_le (of_decide_eq_true (h p List.mem_cons_self))
    have hrest := ih fun q hq => h q (List.mem_cons_of_mem p hq)
    rw [List.map_cons, Bytes.concat_cons, trace_of_encode hb]
    exact .cons hb hrest

/-- The byte of a packet that was refused is taken for the type of what stands behind it. -/
theorem readTyped_of_stray {s : Source} (hs : s.Steady) {p : Packet} {r : Bytes} (hp : p.fits = false)
    (h : s.rest = p.trace ++ r) : readTyped s = read p.type (s.advance 1) ∧ (s.advance 1).rest = r := by
  rw [trace_of_not_fits hp] at h
  obtain ⟨hread, hrest⟩ := Frame.readExact_append hs h
  have hbyte : Frame.readExact s 1 = (.ok ⟨#[p.type.byte]⟩, s.advance 1) := hread
  have htype : Bytes.at0 ⟨#[p.type.byte]⟩ 0 = p.type.byte := rfl
  refine ⟨?_, hrest⟩
  simp only [readTyped, hbyte, htype, ofByte_byte]

/-- A packet that no frame holds leaves its type byte on the stream, with every writer. Packets that are tried
one after another are read back up to the first of these. If there is none, nothing more is on the stream; else
reading goes on with its byte for the type of what the packets behind it left. -/
theorem readTimes_of_tries {l : List Packet} (hl : ∀ p ∈ l, p.Genuine) :
    (∀ (σ : Type) [ByteSink σ] (p : Packet) (s s' : σ) (n : Nat),
        p.writeTyped s = (.error (.framing (.tooLarge n)), s') ↔
          p.fits = false ∧ n = p.payload.size ∧ ByteSink.push ⟨#[p.type.byte]⟩ s = (.ok (), s')) ∧
      ∃ w, tries l Sink.empty = (l.map fun p => p.encode.map fun _ => (), w) ∧
        w.accepted = Bytes.concat (l.map trace) ∧
        ∀ s : Source, s.Steady → s.pos = 0 → s.bytes = w.accepted →
          ∃ s', (∀ n, readTimes ((l.takeWhile fits).length + n) s =
              (l.takeWhile fits).map (fun p => (.ok p, p.wireSize)) ++ readTimes n s') ∧
            (l.dropWhile fits = [] → ∀ n, readTimes n s' = List.replicate n (.error (.framing .truncated), 0)) ∧
            ∀ p m, l.dropWhile fits = p :: m → readTyped s' = read p.type (s'.advance 1) ∧
              (s'.advance 1).rest = Bytes.concat (m.map trace) := by
  have htries := tries_eq (w := Sink.empty) ⟨rfl, rfl⟩ l
  refine ⟨fun σ _ p s s' n => writeTyped_eq_tooLarge_iff, _, htries, Sink.accepted_grow_empty _,
    fun s hs hstart hbytes => ?_⟩
  have hfits : ∀ p ∈ l.takeWhile fits, p.fits = true := List.all_eq_true.mp List.all_takeWhile
  have hrest : s.rest =
      Bytes.concat ((l.takeWhile fits).map trace) ++ Bytes.concat ((l.dropWhile fits).map trace) := by
    rw [Source.rest_of_start hstart, hbytes, Sink.accepted_grow_empty, ← Bytes.concat_append, ← List.map_append,
      List.takeWhile_append_dropWhile]
  obtain ⟨s', hs', hleft, hreads⟩ := readTimes_of_stream (stream_of_fits hfits)
    (fun p hp => (hl p (List.takeWhile_subset _ hp)).faithful) hs hrest
  refine ⟨s', hreads, fun hnone n => ?_, fun p m hdrop => ?_⟩
  · rw [hnone] at hleft
    exact readTimes_of_end hs' hleft n
  · have hp : p.fits = false := by
      have hhead := List.head?_dropWhile_not fits l
      rw [hdrop] at hhead
      simpa using hhead
    rw [hdrop, List.map_cons, Bytes.concat_cons] at hleft
    exact readTyped_of_stray hs' hp hleft

/-- A chunk that is one byte too large. -/
def largeChunk : Packet := .sequence (.ofChunk 0 ⟨Array.replicate 16777204 0⟩)

theorem size_largeChunk : largeChunk.payload.size = 16777217 := by
  have hsize : (Sequence.ofChunk 0 ⟨Array.replicate 16777204 0⟩).bytes.size = 16777204 := Array.size_replicate
  rw [largeChunk, payload, Sequence.size_encode, hsize]

theorem largeChunk_not_fits : largeChunk.fits = false := by
  rw [fits, size_largeChunk]
  decide

/-- Between two packets that fit, the chunk is refused, the packet before it is read, and the byte that it left
is taken for the type of the packet behind it. -/
theorem readTimes_of_largeChunk :
    let l : List Packet := [.identity .ended, largeChunk, .header .terminator]
    (∀ p ∈ l, p.Genuine) ∧
      ∃ w, tries l Sink.empty = ([.ok (), .error (.framing (.tooLarge 16777217)), .ok ()], w) ∧
        ∀ s : Source, s.Steady → s.pos = 0 → s.bytes = w.accepted →
          ∃ s', (∀ n, readTimes (1 + n) s = (.ok (.identity .ended), wireSize (.identity .ended)) :: readTimes n s') ∧
            readTyped s' = read .blockSequence (s'.advance 1) := by
  intro l
  have hl : ∀ p ∈ l, p.Genuine := by
    simp only [l, largeChunk, List.forall_mem_cons, List.not_mem_nil, false_implies, implies_true, and_true]
    exact ⟨.ended, .sequence _, .header .terminator (by decide) (by decide)⟩
  obtain ⟨-, w, htries, -, hread⟩ := readTimes_of_tries hl
  have hended : fits (.identity .ended) = true := by decide
  have hrefused := encode_of_not_fits largeChunk_not_fits
  have hresults : (l.map fun p => p.encode.map fun _ => ()) =
      [.ok (), .error (.framing (.tooLarge 16777217)), .ok ()] := by
    obtain ⟨b, hb⟩ := encode_of_le (p := .identity .ended) (by decide)
    obtain ⟨c, hc⟩ := encode_of_le (p := .header .terminator) (by decide)
    simp [l, hb, hc, hrefused, size_largeChunk, Except.map]
  refine ⟨hl, w, by rw [htries, hresults], fun s hs hstart hbytes => ?_⟩
  obtain ⟨s', hreads, -, hstray⟩ := hread s hs hstart hbytes
  have htake : l.takeWhile fits = [.identity .ended] := by
    simp [l, hended, largeChunk_not_fits]
  have hdrop : l.dropWhile fits = [largeChunk, .header .terminator] := by
    simp [l, hended, largeChunk_not_fits]
  rw [htake] at hreads
  exact ⟨s', hreads, (hstray _ _ hdrop).1⟩

/-- A packet that is written last is lost when the one before it was refused. -/
theorem readTyped_of_stray_last {s : Source} (hs : s.Steady) {p q : Packet} (hp : p.fits = false)
    (hpos : 0 < q.payload.size) (hlt : q.payload.size < Frame.maxLength) (h : s.rest = p.trace ++ q.trace) :
    ∃ e s', readTyped s = (.error e, s') := by
  obtain ⟨hread, hrest⟩ := readTyped_of_stray hs hp h
  obtain ⟨b, hb⟩ := encode_of_le (Nat.le_of_lt hlt)
  obtain ⟨-, rfl⟩ := Frame.encode_eq_ok_iff.mp (encode_eq_ok_iff.mp hb)
  -- The length that is read is made of the type byte and the low bytes of the length.
  have hword : (s.advance 1).rest =
      Bytes.ofUInt32LE (UInt32.ofNat (q.type.byte.toNat + 256 * q.payload.size)) ++
        (⟨#[0]⟩ ++ q.payload ++ Bytes.ofUInt32LE (Crc32.checksum q.payload)) := by
    rw [hrest, trace_of_encode hb, ← ByteArray.append_assoc, ← ByteArray.append_assoc, Bytes.append_ofUInt32LE hlt]
    simp only [ByteArray.append_assoc]
  have hbyte := q.type.byte.toNat_lt
  have hmax : Frame.maxLength = 16777216 := rfl
  have hlength : (UInt32.ofNat (q.type.byte.toNat + 256 * q.payload.size)).toNat =
      q.type.byte.toNat + 256 * q.payload.size := UInt32.toNat_ofNat_of_lt' (by simp only [UInt32.size]; omega)
  have hshort : (⟨#[0]⟩ ++ q.payload ++ Bytes.ofUInt32LE (Crc32.checksum q.payload)).size <
      (UInt32.ofNat (q.type.byte.toNat + 256 * q.payload.size)).toNat := by
    have hone : ByteArray.size ⟨#[0]⟩ = 1 := rfl
    rw [hlength]
    simp only [ByteArray.size_append, Bytes.size_ofUInt32LE, hone]
    omega
  obtain ⟨e, s', hframe⟩ := Frame.read_of_short (hs.advance 1) hword hshort
  exact ⟨.framing e, s', by rw [hread, read, hframe]⟩

/-- A refusal does not leave the stream untouched: the type byte of the chunk is on it, and the packet behind it,
which was written in full, is not read. -/
theorem readTyped_of_largeChunk :
    ∃ w, tries [largeChunk, .header .terminator] Sink.empty =
        ([.error (.framing (.tooLarge 16777217)), .ok ()], w) ∧
      (largeChunk.writeTyped Sink.empty).2.accepted = ⟨#[1]⟩ ∧
      ∃ e s', readTyped (.ofBytes w.accepted) = (.error e, s') := by
  have hempty : Sink.empty.Unfailing := ⟨rfl, rfl⟩
  have hrefused := encode_of_not_fits largeChunk_not_fits
  have htries := tries_eq hempty [largeChunk, .header .terminator]
  have hresults : [largeChunk, .header .terminator].map (fun p => p.encode.map fun _ => ()) =
      [.error (.framing (.tooLarge 16777217)), .ok ()] := by
    obtain ⟨b, hb⟩ := encode_of_le (p := .header .terminator) (by decide)
    simp [hb, hrefused, size_largeChunk, Except.map]
  rw [hresults] at htries
  refine ⟨_, htries, ?_, readTyped_of_stray_last (q := .header .terminator) (Source.steady_ofBytes _)
    largeChunk_not_fits (by decide) (by decide) ?_⟩
  · rw [writeTyped_eq hempty, hrefused]
    rfl
  · have hbytes : Bytes.concat ([largeChunk, .header .terminator].map trace) =
        largeChunk.trace ++ trace (.header .terminator) := by simp
    rw [Source.rest_of_start rfl, Sink.accepted_grow_empty, ← hbytes]
    rfl

end Packet
end ChunkRelay
