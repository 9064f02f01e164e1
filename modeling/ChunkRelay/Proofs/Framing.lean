import ChunkRelay.Proofs.Headers

/-! Packets on a stream. A source that never breaks hands back every packet that was put on it, and
stands right after it. -/
namespace ChunkRelay
namespace Frame

theorem encode_eq_ok_iff {payload b : Bytes} :
    encode payload = .ok b ↔ payload.size ≤ maxLength ∧
      b = Bytes.ofUInt32LE (UInt32.ofNat payload.size) ++ payload ++
        Bytes.ofUInt32LE (Crc32.checksum payload) := by
  unfold encode
  by_cases h : payload.size > maxLength
  · simp [h, Nat.not_le.mpr h]
  · simp [h, Nat.le_of_not_lt h, eq_comm]

theorem readExact_append {s : Source} (hs : s.Steady) {b r : Bytes} (h : s.rest = b ++ r) :
    readExact s b.size = (.ok b, s.advance b.size) ∧ (s.advance b.size).rest = r := by
  obtain ⟨ht, hr⟩ := Source.take_append hs h
  refine ⟨?_, hr⟩
  simp [readExact, ht]

/-- A read that asks for more than there is takes all of it and fails. -/
theorem readExact_of_short {s : Source} (hs : s.Steady) {n : Nat} (h : s.rest.size < n) :
    readExact s n = (.error .truncated, s.advance s.rest.size) := by
  have hshort : (s.rest.extract 0 n).size < n := by
    rw [ByteArray.size_extract]
    omega
  simp only [readExact, Source.take_eq hs, if_pos hshort, Nat.min_eq_right (Nat.le_of_lt h)]

theorem readExact_word {s : Source} (hs : s.Steady) {w : UInt32} {r : Bytes}
    (h : s.rest = Bytes.ofUInt32LE w ++ r) :
    ∃ b, readExact s 4 = (.ok b, s.advance 4) ∧ b.uint32LE 0 = w ∧ (s.advance 4).rest = r := by
  obtain ⟨hread, hr⟩ := readExact_append hs h
  exact ⟨_, hread, (Bytes.holds_self _).uint32LE_eq, hr⟩

theorem read_append {s : Source} (hs : s.Steady) {payload b r : Bytes} (hb : encode payload = .ok b)
    (h : s.rest = b ++ r) :
    Frame.read s = (.ok payload, s.advance b.size) ∧ (s.advance b.size).rest = r := by
  obtain ⟨hmax, rfl⟩ := encode_eq_ok_iff.mp hb
  simp only [ByteArray.append_assoc] at h
  obtain ⟨head, hhead, hlen, h₁⟩ := readExact_word hs h
  obtain ⟨hpayload, h₂⟩ := readExact_append (hs.advance 4) h₁
  obtain ⟨trailer, htrailer, hcrc, h₃⟩ := readExact_word ((hs.advance 4).advance payload.size) h₂
  have hsize : (UInt32.ofNat payload.size).toNat = payload.size :=
    UInt32.toNat_ofNat_of_lt' (Nat.lt_of_le_of_lt hmax (by decide))
  have hfits : ¬ payload.size > maxLength := Nat.not_lt.mpr hmax
  have htotal : 4 + payload.size + 4 = (Bytes.ofUInt32LE (UInt32.ofNat payload.size) ++ payload ++
      Bytes.ofUInt32LE (Crc32.checksum payload)).size := by simp
  simp only [Source.advance_advance, htotal] at htrailer h₃
  refine ⟨?_, h₃⟩
  simp only [Frame.read, hhead, hlen, hsize, if_neg hfits, hpayload, Source.advance_advance, htrailer, hcrc,
    checked, if_pos]

end Frame

@[simp] theorem mapError_ok {α ε δ : Type} (f : ε → δ) (a : α) : (Except.ok a).mapError f = .ok a := rfl

@[simp] theorem mapError_error {α ε δ : Type} (f : ε → δ) (e : ε) :
    (Except.error e : Except ε α).mapError f = .error (f e) := rfl

namespace Packet

/-- A packet that comes out of its own payload. -/
def Faithful (p : Packet) : Prop := p.payload.size ≤ Frame.maxLength → ofPayload p.type p.payload = .ok p

theorem lt_size_of_le_maxLength {n : Nat} (h : n ≤ Frame.maxLength) : n < UInt64.size :=
  Nat.lt_of_le_of_lt h (by decide)

/-- A header comes out of its payload as its record is decoded. -/
theorem ofPayload_header {h g : Header} (hr : Header.ofRaw h.raw = .ok g) (hsize : h.encode.size ≤ Frame.maxLength) :
    ofPayload .blockHeader h.encode = .ok (.header g) := by
  have hrun := (Header.reads_encode (lt_size_of_le_maxLength hsize)).run_eq
  simp only [ofPayload, hrun, mapError_ok, bind, Except.bind, hr]
  rfl

theorem faithful_header {h : Header} (hc : h.Canonical) : (Packet.header h).Faithful := by
  intro hsize
  exact ofPayload_header (Header.ofRaw_raw hc) hsize

theorem faithful_sequence (p : Sequence) : (Packet.sequence p).Faithful := by
  intro hs
  have hrun := (Sequence.reads_encode (lt_size_of_le_maxLength hs)).run_eq
  simp only [ofPayload, type, payload, hrun, mapError_ok, bind, Except.bind]
  rfl

theorem encode_eq_ok_iff {p : Packet} {b : Bytes} : p.encode = .ok b ↔ Frame.encode p.payload = .ok b := by
  unfold encode
  cases Frame.encode p.payload with
  | ok frame => simp
  | error e => simp

theorem encode_of_le {p : Packet} (h : p.payload.size ≤ Frame.maxLength) : ∃ b, p.encode = .ok b :=
  ⟨_, encode_eq_ok_iff.mpr (Frame.encode_eq_ok_iff.mpr ⟨h, rfl⟩)⟩

/-- The bytes that a packet takes on a stream, with its type byte and its frame. -/
def wireSize (p : Packet) : Nat := 1 + Frame.overhead + p.payload.size

theorem size_of_encode {p : Packet} {b : Bytes} (h : p.encode = .ok b) : 1 + b.size = p.wireSize := by
  obtain ⟨-, rfl⟩ := Frame.encode_eq_ok_iff.mp (encode_eq_ok_iff.mp h)
  simp only [wireSize, Frame.overhead, ByteArray.size_append, Bytes.size_ofUInt32LE]
  omega

/-- The bytes are those packets, one after another, each behind its type byte. -/
inductive Stream : List Packet → Bytes → Prop
  | nil : Stream [] ByteArray.empty
  | cons {p : Packet} {l : List Packet} {b c : Bytes} :
      p.encode = .ok b → Stream l c → Stream (p :: l) (⟨#[p.type.byte]⟩ ++ b ++ c)

theorem Stream.append {l m : List Packet} {b c : Bytes} (hl : Stream l b) (hm : Stream m c) :
    Stream (l ++ m) (b ++ c) := by
  induction hl with
  | nil => simpa using hm
  | cons hp _ ih =>
    rw [List.cons_append, ByteArray.append_assoc]
    exact .cons hp ih

/-- Writing the packets one after another succeeds. -/
inductive Writes : List Packet → Sink → Sink → Prop
  | nil {w : Sink} : Writes [] w w
  | cons {p : Packet} {l : List Packet} {w w₁ w' : Sink} :
      p.writeTyped w = (.ok (), w₁) → Writes l w₁ w' → Writes (p :: l) w w'

theorem writeTyped_eq {w : Sink} (hw : w.Unfailing) (p : Packet) :
    p.writeTyped w =
      match p.encode with
      | .ok b => (.ok (), w.grow (⟨#[p.type.byte]⟩ ++ b))
      | .error e => (.error e, w.grow ⟨#[p.type.byte]⟩) := by
  simp only [writeTyped, push, Frame.push, Sink.push_eq hw]
  cases p.encode with
  | error e => rfl
  | ok b => simp only [Sink.push_eq (hw.grow _), Sink.grow_grow]

theorem stream_of_writes {l : List Packet} {w w' : Sink} (hw : w.Unfailing) (h : Writes l w w') :
    ∃ b, Stream l b ∧ w' = w.grow b := by
  induction h with
  | nil => exact ⟨ByteArray.empty, .nil, by rw [Sink.grow_empty]⟩
  | @cons p l w w₁ w' hp _ ih =>
    rw [writeTyped_eq hw] at hp
    cases hb : p.encode with
    | error e => simp [hb] at hp
    | ok b =>
      simp only [hb, Prod.mk.injEq, true_and] at hp
      subst hp
      obtain ⟨c, hc, rfl⟩ := ih (hw.grow _)
      exact ⟨_, .cons hb hc, by rw [Sink.grow_grow]⟩

/-- Packets that fit frames are written to a sink that takes everything. -/
theorem exists_writes {l : List Packet} (hl : ∀ p ∈ l, p.payload.size ≤ Frame.maxLength) {w : Sink}
    (hw : w.Unfailing) : ∃ w', Writes l w w' := by
  induction l generalizing w with
  | nil => exact ⟨w, .nil⟩
  | cons p l ih =>
    obtain ⟨b, hb⟩ := encode_of_le (hl p List.mem_cons_self)
    have hp := writeTyped_eq hw p
    rw [hb] at hp
    obtain ⟨w', hrest⟩ := ih (fun q hq => hl q (List.mem_cons_of_mem p hq)) (hw.grow (⟨#[p.type.byte]⟩ ++ b))
    exact ⟨w', .cons hp hrest⟩

section Writers

variable {ω : Type} [ByteSink ω]

/-- Writes packets one after another, up to the first that fails. -/
def writeAll : List Packet → ω → Except PacketError Unit × ω
  | [], w => (.ok (), w)
  | p :: l, w =>
    match p.writeTyped w with
    | (.error e, w) => (.error e, w)
    | (.ok (), w) => writeAll l w

theorem writeAll_append (l m : List Packet) (w : ω) :
    writeAll (l ++ m) w =
      match writeAll l w with
      | (.error e, w) => (.error e, w)
      | (.ok (), w) => writeAll m w := by
  induction l generalizing w with
  | nil => rfl
  | cons p l ih =>
    simp only [List.cons_append, writeAll]
    rcases p.writeTyped w with ⟨_ | _, w'⟩
    · rfl
    · exact ih w'

theorem writeAll_append_eq_ok_iff {l m : List Packet} {w w' : ω} :
    writeAll (l ++ m) w = (.ok (), w') ↔ ∃ w₁, writeAll l w = (.ok (), w₁) ∧ writeAll m w₁ = (.ok (), w') := by
  rw [writeAll_append]
  rcases writeAll l w with ⟨_ | _, w₁⟩ <;> simp

theorem writeAll_cons_eq_ok_iff {p : Packet} {l : List Packet} {w w' : ω} :
    writeAll (p :: l) w = (.ok (), w') ↔ ∃ w₁, p.writeTyped w = (.ok (), w₁) ∧ writeAll l w₁ = (.ok (), w') := by
  rw [writeAll]
  rcases p.writeTyped w with ⟨_ | _, w₁⟩ <;> simp

end Writers

theorem writes_iff {l : List Packet} {w w' : Sink} : Writes l w w' ↔ writeAll l w = (.ok (), w') := by
  constructor
  · intro h
    induction h with
    | nil => rfl
    | cons hp _ ih => exact writeAll_cons_eq_ok_iff.mpr ⟨_, hp, ih⟩
  · intro h
    induction l generalizing w with
    | nil =>
      obtain ⟨-, rfl⟩ := Prod.mk.inj h
      exact .nil
    | cons p l ih =>
      obtain ⟨w₁, hp, hrest⟩ := writeAll_cons_eq_ok_iff.mp h
      exact .cons hp (ih hrest)

theorem ofByte_byte (t : PacketType) : PacketType.ofByte t.byte = .ok t := by cases t <;> rfl

/-- Reading takes the payload of the packet that stands first, whatever it decodes to, and no byte more. -/
theorem readTyped_append {s : Source} (hs : s.Steady) {p : Packet} {b r : Bytes} (hb : p.encode = .ok b)
    (h : s.rest = ⟨#[p.type.byte]⟩ ++ b ++ r) :
    readTyped s = (ofPayload p.type p.payload, s.advance p.wireSize) ∧ (s.advance p.wireSize).rest = r := by
  rw [ByteArray.append_assoc] at h
  obtain ⟨hbyte, h₁⟩ := Frame.readExact_append hs h
  obtain ⟨hframe, h₂⟩ := Frame.read_append (hs.advance _) (encode_eq_ok_iff.mp hb) h₁
  rw [Source.advance_advance] at hframe h₂
  have hsize : ByteArray.size ⟨#[p.type.byte]⟩ + b.size = p.wireSize := size_of_encode hb
  have hread : Frame.readExact s 1 = (.ok ⟨#[p.type.byte]⟩, s.advance (ByteArray.size ⟨#[p.type.byte]⟩)) := hbyte
  have htype : Bytes.at0 ⟨#[p.type.byte]⟩ 0 = p.type.byte := rfl
  rw [hsize] at hframe h₂
  refine ⟨?_, h₂⟩
  simp only [readTyped, hread, htype, ofByte_byte, read, hframe]

/-- Reading takes the payload of the first packet off a stream, whatever it decodes to. -/
theorem readTyped_of_payload {s : Source} (hs : s.Steady) {p : Packet} {l : List Packet} {c r : Bytes}
    (hl : Stream (p :: l) c) (h : s.rest = c ++ r) :
    ∃ s' c', readTyped s = (ofPayload p.type p.payload, s') ∧ p.payload.size ≤ Frame.maxLength ∧ s'.Steady ∧
      Stream l c' ∧ s'.rest = c' ++ r := by
  cases hl with
  | @cons _ _ b c' hb hl =>
    rw [ByteArray.append_assoc] at h
    obtain ⟨hread, hrest⟩ := readTyped_append hs hb h
    have hsize := (Frame.encode_eq_ok_iff.mp (encode_eq_ok_iff.mp hb)).1
    exact ⟨_, c', hread, hsize, hs.advance _, hl, hrest⟩

/-- Reading takes the first packet off a stream. -/
theorem readTyped_of_stream {s : Source} (hs : s.Steady) {p : Packet} {l : List Packet} {c r : Bytes}
    (hp : p.Faithful) (hl : Stream (p :: l) c) (h : s.rest = c ++ r) :
    ∃ s' c', readTyped s = (.ok p, s') ∧ s'.Steady ∧ Stream l c' ∧ s'.rest = c' ++ r := by
  obtain ⟨s', c', hread, hsize, hrest⟩ := readTyped_of_payload hs hl h
  rw [hp hsize] at hread
  exact ⟨s', c', hread, hrest⟩

end Packet
end ChunkRelay
