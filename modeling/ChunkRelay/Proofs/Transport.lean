import ChunkRelay.Proofs.Parsing

/-! Reading from any source. However few bytes a source hands out at a time and wherever it breaks, a read
that succeeds has taken the bytes that stand next, and a packet that is read is the one that they parse to.
A source that never breaks is read as its bytes are decoded, and is left behind the bytes that decoding takes. -/
namespace ChunkRelay
namespace Bytes

variable {a b : Bytes} {i : Nat}

theorem at0_append_left (h : i < a.size) : (a ++ b).at0 i = a.at0 i := by
  rw [at0, at0, dif_pos h, dif_pos (by rw [ByteArray.size_append]; omega), ByteArray.getElem_append_left h]

theorem at0_append_right (a b : Bytes) (i : Nat) : (a ++ b).at0 (a.size + i) = b.at0 i := by
  unfold at0
  by_cases h : i < b.size
  · rw [dif_pos h, dif_pos (by rw [ByteArray.size_append]; omega), ByteArray.getElem_append_right (by omega)]
    simp
  · rw [dif_neg h, dif_neg (by rw [ByteArray.size_append]; omega)]

theorem uint32LE_append_left (h : i + 4 ≤ a.size) : (a ++ b).uint32LE i = a.uint32LE i := by
  rw [uint32LE, uint32LE, at0_append_left (by omega), at0_append_left (by omega), at0_append_left (by omega),
    at0_append_left (by omega)]

theorem uint32LE_append_right (a b : Bytes) (i : Nat) : (a ++ b).uint32LE (a.size + i) = b.uint32LE i := by
  simp only [uint32LE, Nat.add_assoc, at0_append_right]

theorem slice_append_left (b : Bytes) {n : Nat} (h : i + n ≤ a.size) : (a ++ b).slice i n = a.slice i n := by
  rw [slice, slice, ByteArray.extract_append, Nat.sub_eq_zero_of_le (by omega), Nat.sub_eq_zero_of_le h,
    ByteArray.extract_same, ByteArray.append_empty]

theorem slice_append_right (a b : Bytes) (i n : Nat) : (a ++ b).slice (a.size + i) n = b.slice i n := by
  rw [slice, slice, Nat.add_assoc, ByteArray.extract_append_size_add]

theorem eq_of_size_eq_one (h : b.size = 1) : b = ⟨#[b.at0 0]⟩ := by
  obtain ⟨⟨_ | ⟨x, _ | _⟩⟩⟩ := b <;> simp [ByteArray.size] at h
  rfl

theorem slice_self (b : Bytes) : b.slice 0 b.size = b := by
  rw [slice, Nat.zero_add, ByteArray.extract_zero_size]

end Bytes

namespace Source

/-- What stands next, and the rest after it. -/
theorem rest_eq_append (s : Source) (n : Nat) : s.rest = s.bytes.slice s.pos n ++ (s.advance n).rest := by
  rw [slice_pos, rest_advance, ByteArray.extract_append_extract, Nat.zero_min]
  by_cases h : n ≤ s.rest.size
  · rw [Nat.max_eq_right h, ByteArray.extract_zero_size]
  · rw [Nat.max_eq_left (Nat.le_of_not_le h)]
    apply ByteArray.ext
    rw [ByteArray.data_extract]
    exact (Array.extract_eq_self_of_le (Nat.le_of_not_le h)).symm

theorem read_eq_ok {s s' : Source} {n : Nat} {b : Bytes} (h : s.read n = (.ok b, s')) :
    b.size ≤ n ∧ b = s.bytes.slice s.pos b.size ∧ s' = s.advance b.size := by
  have hread : (.ok b, s') = (Except.ok (ε := IoError) (s.bytes.slice s.pos (min n s.available)),
      s.advance (min n s.available)) := by
    obtain ⟨bytes, grant, _ | failure, pos⟩ := s
    · exact h.symm
    · simp only [read] at h
      split at h
      · cases h
      · exact h.symm
  obtain ⟨hb, rfl⟩ := Prod.mk.inj hread
  have havailable : s.available ≤ s.bytes.size - s.pos := by
    unfold available
    cases s.breakAt <;> simp only <;> omega
  have hsize : b.size = min n s.available := by
    rw [Except.ok.inj hb, Bytes.size_slice_eq]
    omega
  rw [hsize]
  exact ⟨Nat.min_le_left .., Except.ok.inj hb, rfl⟩

theorem fill_eq_ok {s s' : Source} {n fuel : Nat} {acc b : Bytes} (h : s.fill n acc fuel = (.ok b, s')) :
    ∃ k ≤ n, b = acc ++ s.bytes.slice s.pos k ∧ (s.bytes.slice s.pos k).size = k ∧ s' = s.advance k := by
  have hnone : s.bytes.slice s.pos 0 = ByteArray.empty := by simp [Bytes.slice]
  induction fuel generalizing s n acc with
  | zero =>
    obtain ⟨hb, rfl⟩ := Prod.mk.inj h
    exact ⟨0, Nat.zero_le n, by rw [hnone, ByteArray.append_empty, Except.ok.inj hb], by rw [hnone]; rfl, rfl⟩
  | succ fuel ih =>
    unfold fill at h
    split at h
    · obtain ⟨hb, rfl⟩ := Prod.mk.inj h
      exact ⟨0, Nat.zero_le n, by rw [hnone, ByteArray.append_empty, Except.ok.inj hb], by rw [hnone]; rfl, rfl⟩
    · split at h
      · cases h
      · rename_i x t hread
        obtain ⟨hle, hx, rfl⟩ := read_eq_ok hread
        split at h
        · rename_i hzero
          obtain ⟨hb, rfl⟩ := Prod.mk.inj h
          rw [hzero]
          exact ⟨0, Nat.zero_le n, by rw [hnone, ByteArray.append_empty, Except.ok.inj hb], by rw [hnone]; rfl, rfl⟩
        · obtain ⟨k, hk, hb, hsize, rfl⟩ := ih h (by simp [Bytes.slice])
          have hjoin := Bytes.slice_append_slice s.bytes s.pos x.size k
          rw [← hx] at hjoin
          refine ⟨x.size + k, by omega, ?_, ?_, advance_advance ..⟩
          · rw [hb, ByteArray.append_assoc, ← hjoin]
            rfl
          · rw [← hjoin, ByteArray.size_append]
            exact congrArg (x.size + ·) hsize

end Source

namespace Frame

/-- What was read stood next in the source, and nothing more was taken. -/
theorem readExact_eq_ok {s s' : Source} {n : Nat} {b : Bytes} (h : readExact s n = (.ok b, s')) :
    b.size = n ∧ s' = s.advance n ∧ s.rest = b ++ s'.rest := by
  unfold readExact at h
  split at h
  · cases h
  · rename_i x t htake
    split at h
    · cases h
    · rename_i hsize
      obtain ⟨hb, rfl⟩ := Prod.mk.inj h
      cases hb
      obtain ⟨k, hk, hx, hslice, rfl⟩ := Source.fill_eq_ok htake
      rw [ByteArray.empty_append] at hx
      rw [← hx] at hslice
      obtain rfl : k = n := by omega
      exact ⟨hslice, rfl, by rw [hx]; exact s.rest_eq_append k⟩

theorem readExact_of_le {s : Source} (hs : s.Steady) {n : Nat} (h : n ≤ s.rest.size) :
    readExact s n = (.ok (s.rest.extract 0 n), s.advance n) := by
  have hsize : ¬ (s.rest.extract 0 n).size < n := by
    rw [ByteArray.size_extract]
    omega
  simp only [readExact, Source.take_eq hs, if_neg hsize, Nat.min_eq_left h]

theorem decode_of_lt {b : Bytes} (h : b.size < 4) : decode b = .error .truncated := by rw [decode, if_pos h]

/-- What stands behind the length decides, by the length alone. -/
theorem decode_append_of_head {head rest : Bytes} (h : head.size = 4) :
    decode (head ++ rest) =
      if (head.uint32LE 0).toNat > maxLength then .error (.tooLarge (head.uint32LE 0).toNat)
      else if rest.size < (head.uint32LE 0).toNat + 4 then .error .truncated
      else (checked (rest.slice 0 (head.uint32LE 0).toNat) (rest.uint32LE (head.uint32LE 0).toNat)).map
        (·, overhead + (head.uint32LE 0).toNat) := by
  have hlength : (head ++ rest).uint32LE 0 = head.uint32LE 0 := Bytes.uint32LE_append_left (by omega)
  have hslice := Bytes.slice_append_right head rest 0 (head.uint32LE 0).toNat
  have htrailer := Bytes.uint32LE_append_right head rest (head.uint32LE 0).toNat
  rw [h] at hslice htrailer
  have hsize : (head ++ rest).size = 4 + rest.size := by rw [ByteArray.size_append, h]
  simp only [decode, hlength, hsize, htrailer, hslice, overhead]
  rw [if_neg (by omega)]
  congr 2
  rw [eq_iff_iff]
  omega

theorem checked_eq_ok {b payload : Bytes} {trailer : UInt32} (h : checked b trailer = .ok payload) : b = payload := by
  simp only [checked] at h
  split at h
  · exact Except.ok.inj h
  · cases h

/-- A frame that is read is decoded from the bytes that it took, whatever stands behind them. -/
theorem read_eq_ok {s s' : Source} {payload : Bytes} (h : Frame.read s = (.ok payload, s')) :
    ∃ b, s.rest = b ++ s'.rest ∧ s' = s.advance b.size ∧ ∀ r, decode (b ++ r) = .ok (payload, b.size) := by
  unfold Frame.read at h
  split at h
  · cases h
  rename_i head t₁ hhead
  simp only at h
  split at h
  · cases h
  rename_i hmax
  split at h
  · cases h
  rename_i body t₂ hbody
  split at h
  · cases h
  rename_i trailer t₃ htrailer
  obtain ⟨hchecked, rfl⟩ := Prod.mk.inj h
  obtain rfl := checked_eq_ok hchecked
  obtain ⟨h₁, rfl, hrest₁⟩ := readExact_eq_ok hhead
  obtain ⟨h₂, rfl, hrest₂⟩ := readExact_eq_ok hbody
  obtain ⟨h₃, rfl, hrest₃⟩ := readExact_eq_ok htrailer
  refine ⟨head ++ (body ++ trailer), ?_, ?_, fun r => ?_⟩
  · rw [hrest₁, hrest₂, hrest₃, ByteArray.append_assoc, ByteArray.append_assoc]
  · simp only [Source.advance_advance, ByteArray.size_append, h₁, h₂, h₃, Nat.add_assoc]
  have hslice : (body ++ (trailer ++ r)).slice 0 (head.uint32LE 0).toNat = body := by
    have hholds := (Bytes.holds_self (body ++ (trailer ++ r))).left.slice_eq
    rwa [h₂] at hholds
  have hword : (body ++ (trailer ++ r)).uint32LE (head.uint32LE 0).toNat = trailer.uint32LE 0 := by
    have hright := Bytes.uint32LE_append_right body (trailer ++ r) 0
    rwa [h₂, Nat.add_zero, Bytes.uint32LE_append_left (Nat.le_of_eq h₃.symm)] at hright
  simp only [ByteArray.append_assoc]
  rw [decode_append_of_head h₁, if_neg hmax, if_neg (by simp only [ByteArray.size_append]; omega), hslice, hword,
    hchecked]
  simp only [Except.map, Except.ok.injEq, Prod.mk.injEq, true_and, ByteArray.size_append, overhead]
  omega

/-- A source that never breaks gives what its bytes are decoded to. -/
theorem read_eq_decode {s : Source} (hs : s.Steady) : (Frame.read s).1 = (decode s.rest).map (·.1) := by
  by_cases hlength : s.rest.size < 4
  · simp only [Frame.read, readExact_of_short hs hlength, decode_of_lt hlength]
    rfl
  have hhead := readExact_of_le hs (Nat.le_of_not_lt hlength)
  obtain ⟨hsize, -, hrest⟩ := readExact_eq_ok hhead
  rw [hrest, decode_append_of_head hsize]
  simp only [Frame.read, hhead]
  generalize Bytes.uint32LE (s.rest.extract 0 4) 0 = w
  have hs₁ := hs.advance 4
  generalize s.advance 4 = t at hs₁
  by_cases hmax : w.toNat > maxLength
  · simp only [if_pos hmax]
    rfl
  simp only [if_neg hmax]
  by_cases hbody : t.rest.size < w.toNat
  · rw [if_pos (by omega)]
    simp only [readExact_of_short hs₁ hbody]
    rfl
  have hread := readExact_of_le hs₁ (Nat.le_of_not_lt hbody)
  obtain ⟨hsize₁, -, hrest₁⟩ := readExact_eq_ok hread
  have hs₂ := hs₁.advance w.toNat
  simp only [hread]
  by_cases htrailer : (t.advance w.toNat).rest.size < 4
  · have hshort : t.rest.size < w.toNat + 4 := by
      rw [hrest₁, ByteArray.size_append]
      omega
    rw [if_pos hshort]
    simp only [readExact_of_short hs₂ htrailer]
    rfl
  · have hlong : ¬ t.rest.size < w.toNat + 4 := by
      rw [hrest₁, ByteArray.size_append]
      omega
    have hlast := readExact_of_le hs₂ (Nat.le_of_not_lt htrailer)
    obtain ⟨hsize₂, -, hrest₂⟩ := readExact_eq_ok hlast
    have hword : t.rest.uint32LE w.toNat = Bytes.uint32LE ((t.advance w.toNat).rest.extract 0 4) 0 := by
      have hright := Bytes.uint32LE_append_right (t.rest.extract 0 w.toNat) (t.advance w.toNat).rest 0
      rw [← hrest₁, hsize₁] at hright
      rw [Nat.add_zero] at hright
      rw [hright, hrest₂, Bytes.uint32LE_append_left (by omega)]
      simp [ByteArray.extract_append_eq_left hsize₂.symm]
    rw [if_neg hlong, hword]
    simp only [hlast, Bytes.slice, Nat.zero_add]
    cases checked (t.rest.extract 0 w.toNat) (Bytes.uint32LE ((t.advance w.toNat).rest.extract 0 4) 0) <;> rfl

theorem decode_eq_ok {b payload : Bytes} {n : Nat} (h : decode b = .ok (payload, n)) :
    n ≤ b.size ∧ payload.size ≤ maxLength := by
  rw [decode] at h
  split at h
  · cases h
  simp only at h
  split at h
  · cases h
  rename_i hmax
  split at h
  · cases h
  rename_i hsize
  cases hchecked : checked (b.slice 4 (b.uint32LE 0).toNat) (b.uint32LE (4 + (b.uint32LE 0).toNat)) with
  | error e => simp [hchecked, Except.map] at h
  | ok payload =>
    simp only [hchecked, Except.map, Except.ok.injEq, Prod.mk.injEq] at h
    obtain ⟨rfl, rfl⟩ := h
    obtain rfl := checked_eq_ok hchecked
    exact ⟨Nat.le_of_not_lt hsize, Nat.le_trans (Bytes.size_slice_le ..) (Nat.le_of_not_lt hmax)⟩

/-- A frame that decodes from the bytes ahead is read, and its bytes are taken. -/
theorem read_of_decode {s : Source} (hs : s.Steady) {payload : Bytes} {n : Nat}
    (h : decode s.rest = .ok (payload, n)) : Frame.read s = (.ok payload, s.advance n) := by
  have hread : Frame.read s = (.ok payload, (Frame.read s).2) := Prod.ext (by rw [read_eq_decode hs, h]; rfl) rfl
  obtain ⟨b, hrest, htaken, hdecode⟩ := read_eq_ok hread
  have hsize := hdecode (Frame.read s).2.rest
  rw [← hrest, h] at hsize
  obtain ⟨-, rfl⟩ := Prod.mk.inj (Except.ok.inj hsize)
  rw [hread, htaken]

end Frame

/-- A read came to what the bytes ahead decode to, and took the bytes that decoding them reports. -/
structure Source.Mirrors {ε α : Type} (s : Source) (read : Except ε α × Source) (decoded : Except ε (α × Nat)) :
    Prop where
  result_eq : read.1 = decoded.map (·.1)
  taken : ∀ a n, decoded = .ok (a, n) → n ≤ s.rest.size ∧ read.2 = s.advance n

theorem Frame.mirrors_decode {s : Source} (hs : s.Steady) : s.Mirrors (Frame.read s) (decode s.rest) where
  result_eq := read_eq_decode hs
  taken _ _ h := ⟨(decode_eq_ok h).1, by rw [read_of_decode hs h]⟩

theorem PacketType.byte_of_ofByte {x : UInt8} {t : PacketType} (h : ofByte x = .ok t) : t.byte = x := by
  unfold ofByte at h
  split at h <;> cases h <;> rfl

namespace Packet

variable {s t : Source}

theorem type_of_ofPayload {type : PacketType} {b : Bytes} {p : Packet} (h : ofPayload type b = .ok p) :
    p.type = type := by
  cases type <;> simp only [ofPayload, bind, Except.bind] at h <;> (repeat' split at h) <;> cases h <;> rfl

theorem parse_of_decode_error {type : PacketType} {b : Bytes} {e : FramingError} (h : Frame.decode b = .error e) :
    parse type b = .error (.framing e) := by
  simp only [parse, h, mapError_error, bind, Except.bind]

theorem parse_of_decode {type : PacketType} {b payload : Bytes} {n : Nat} (h : Frame.decode b = .ok (payload, n)) :
    parse type b = (ofPayload type payload).map (·, n) := by
  simp only [parse, h, mapError_ok, bind, Except.bind]
  cases ofPayload type payload <;> rfl

theorem mirrors_parse {s : Source} (hs : s.Steady) (type : PacketType) :
    s.Mirrors (read type s) (parse type s.rest) := by
  cases hdecode : Frame.decode s.rest with
  | error e =>
    have hframe : Frame.read s = (.error e, (Frame.read s).2) :=
      Prod.ext (by rw [Frame.read_eq_decode hs, hdecode]; rfl) rfl
    have hread : read type s = (.error (.framing e), (Frame.read s).2) := by
      unfold read
      rw [hframe]
    rw [hread, parse_of_decode_error hdecode]
    exact ⟨rfl, nofun⟩
  | ok r =>
    obtain ⟨payload, n⟩ := r
    have hread : read type s = (ofPayload type payload, s.advance n) := by
      simp only [read, Frame.read_of_decode hs hdecode]
    rw [hread, parse_of_decode hdecode]
    refine ⟨by cases ofPayload type payload <;> rfl, fun p m hp => ?_⟩
    cases hpayload : ofPayload type payload with
    | error e => simp [hpayload, Except.map] at hp
    | ok q =>
      obtain ⟨-, rfl⟩ := Prod.mk.inj (Except.ok.inj (hpayload ▸ hp : Except.ok (q, n) = Except.ok (p, m)))
      exact ⟨(Frame.decode_eq_ok hdecode).1, rfl⟩

/-- A slice and a stream of the same bytes give the same frame and the same packet, or the same error, and the
stream is moved on by as many bytes as the slice is reported to have used. -/
theorem read_mirrors_slice {s : Source} (hs : s.Steady) :
    s.Mirrors (Frame.read s) (Frame.decode s.rest) ∧ ∀ type, s.Mirrors (read type s) (parse type s.rest) :=
  ⟨Frame.mirrors_decode hs, mirrors_parse hs⟩

/-- A frame without payload and two bytes behind it, handed out one byte at a time. -/
def trickle : Source := ⟨⟨#[0, 0, 0, 0, 0, 0, 0, 0, 7, 7]⟩, fun _ => 1, none, 0⟩

theorem steady_trickle : trickle.Steady := ⟨rfl, fun _ _ => Nat.one_pos⟩

theorem trickle_mirrors_slice :
    trickle.Steady ∧ Frame.decode trickle.rest = .ok (ByteArray.empty, 8) ∧
      (Frame.read trickle).2 = trickle.advance 8 ∧
      ∀ type, trickle.Mirrors (read type trickle) (parse type trickle.rest) := by
  have hdecode : Frame.decode trickle.rest = .ok (ByteArray.empty, 8) := by rfl
  obtain ⟨hframe, hpacket⟩ := read_mirrors_slice steady_trickle
  exact ⟨steady_trickle, hdecode, (hframe.taken _ _ hdecode).2, hpacket⟩

/-- The bytes are those of packets, one after another, each parsed from the frame behind its type byte. -/
inductive Parses : List Packet → Bytes → Prop
  | nil : Parses [] ByteArray.empty
  | cons {p : Packet} {l : List Packet} {b c : Bytes} :
      parse p.type b = .ok (p, b.size) → Parses l c → Parses (p :: l) (⟨#[p.type.byte]⟩ ++ b ++ c)

theorem Parses.append {l m : List Packet} {b c : Bytes} (hl : Parses l b) (hm : Parses m c) :
    Parses (l ++ m) (b ++ c) := by
  induction hl with
  | nil => simpa using hm
  | cons hp _ ih =>
    rw [List.cons_append, ByteArray.append_assoc]
    exact .cons hp ih

theorem Parses.split {l m : List Packet} {b : Bytes} (h : Parses (l ++ m) b) :
    ∃ c d, b = c ++ d ∧ Parses l c ∧ Parses m d := by
  induction l generalizing b with
  | nil => exact ⟨ByteArray.empty, b, by simp, .nil, h⟩
  | cons p l ih =>
    cases h with
    | @cons _ _ b c hp hl =>
      obtain ⟨c, d, rfl, hl, hm⟩ := ih hl
      exact ⟨_, d, ByteArray.append_assoc.symm, .cons hp hl, hm⟩

theorem readTyped_eq_ok {p : Packet} (h : readTyped s = (.ok p, t)) :
    ∃ b, Parses [p] b ∧ s.rest = b ++ t.rest := by
  unfold readTyped at h
  split at h
  · cases h
  rename_i x s₁ hbyte
  split at h
  · cases h
  rename_i type htype
  unfold Packet.read at h
  split at h
  · cases h
  rename_i payload s₂ hframe
  obtain ⟨hpayload, rfl⟩ := Prod.mk.inj h
  obtain ⟨hx, -, hrest⟩ := Frame.readExact_eq_ok hbyte
  obtain ⟨b, hrest₁, -, hdecode⟩ := Frame.read_eq_ok hframe
  have hp := type_of_ofPayload hpayload
  have hfirst : x = ⟨#[p.type.byte]⟩ := by
    rw [hp, PacketType.byte_of_ofByte htype]
    exact Bytes.eq_of_size_eq_one hx
  have hparse : parse p.type b = .ok (p, b.size) := by
    have hb := hdecode ByteArray.empty
    rw [ByteArray.append_empty] at hb
    simp only [parse, hb, mapError_ok, hp, bind, Except.bind, hpayload]
    rfl
  refine ⟨_, .cons hparse .nil, ?_⟩
  rw [ByteArray.append_empty, hrest, hrest₁, hfirst, ByteArray.append_assoc]

/-- What comes of reading packets, one after another. -/
inductive Reads : Source → List (Except PacketError Packet) → Source → Prop
  | nil {s : Source} : Reads s [] s
  | cons {s t u : Source} {r : Except PacketError Packet} {l : List (Except PacketError Packet)} :
      readTyped s = (r, t) → Reads t l u → Reads s (r :: l) u

/-- Packets that are read stood next in the source, and nothing more was taken. -/
theorem Reads.parses {l : List Packet} (h : Reads s (l.map .ok) t) : ∃ b, Parses l b ∧ s.rest = b ++ t.rest := by
  induction l generalizing s with
  | nil =>
    cases h
    exact ⟨ByteArray.empty, .nil, by simp⟩
  | cons p l ih =>
    cases h with
    | cons hr hl =>
      obtain ⟨b, hb, hrest⟩ := readTyped_eq_ok hr
      obtain ⟨c, hc, hrest'⟩ := ih hl
      exact ⟨b ++ c, hb.append hc, by rw [hrest, hrest', ByteArray.append_assoc]⟩

end Packet
end ChunkRelay
