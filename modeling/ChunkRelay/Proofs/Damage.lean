import ChunkRelay.Proofs.Transport

/-! Damaged frames. A checksum tells any two payloads apart that differ in one byte, so a changed byte of a
payload or of its checksum is noticed. The checksum does not cover the length before it: a changed length is
noticed unless it cuts the frame where four bytes happen to be the checksum of all those before them. -/
namespace ChunkRelay
namespace Crc32

theorem and_one_eq_one_iff (c : UInt32) : c &&& 1 = 1 ↔ c.toBitVec[0] = true := by
  have h : (c &&& 1).toBitVec = BitVec.setWidth 32 (BitVec.ofBool c.toBitVec[0]) := by
    rw [UInt32.toBitVec_and, ← BitVec.getLsbD_eq_getElem]
    exact BitVec.and_one_eq_setWidth_ofBool_getLsbD
  rw [← UInt32.toBitVec_inj, h]
  cases c.toBitVec[0] <;> decide

/-- A shift moves every bit down by one and spreads the lowest one over the polynomial. -/
theorem getLsbD_shift (c : UInt32) (i : Nat) :
    (shift c).toBitVec.getLsbD i =
      (c.toBitVec.getLsbD (i + 1) ^^ (c.toBitVec[0] && polynomial.toBitVec.getLsbD i)) := by
  have hone : UInt32.toBitVec 1 % 32 = 1#32 := rfl
  unfold shift
  split
  · rename_i h
    rw [and_one_eq_one_iff] at h
    simp [h, Nat.add_comm]
  · rename_i h
    rw [and_one_eq_one_iff, Bool.not_eq_true] at h
    simp [h, Nat.add_comm]

/-- The polynomial has the top bit, which is free after a shift, so nothing is lost. -/
theorem shift_inj {c d : UInt32} (h : shift c = shift d) : c = d := by
  have hbits (i : Nat) : (c.toBitVec.getLsbD (i + 1) ^^ (c.toBitVec[0] && polynomial.toBitVec.getLsbD i)) =
      (d.toBitVec.getLsbD (i + 1) ^^ (d.toBitVec[0] && polynomial.toBitVec.getLsbD i)) := by
    rw [← getLsbD_shift, ← getLsbD_shift, h]
  have htop : polynomial.toBitVec[31] = true := by decide
  have hlow : c.toBitVec[0] = d.toBitVec[0] := by simpa [htop] using hbits 31
  apply UInt32.toBitVec_inj.mp
  apply BitVec.eq_of_getLsbD_eq
  intro i _
  cases i with
  | zero => exact hlow
  | succ i => simpa [hlow] using hbits i

theorem xor_eq_of_byte_eq {c d : UInt32} {x y : UInt8} (h : byte c x = byte d y) :
    c ^^^ x.toUInt32 = d ^^^ y.toUInt32 :=
  shift_inj (shift_inj (shift_inj (shift_inj (shift_inj (shift_inj (shift_inj (shift_inj h)))))))

theorem foldl_byte_inj {l : List UInt8} {c d : UInt32} (h : l.foldl byte c = l.foldl byte d) : c = d := by
  induction l generalizing c d with
  | nil => exact h
  | cons x l ih => exact (UInt32.xor_left_inj _).mp (xor_eq_of_byte_eq (ih h))

/-- Of two payloads that differ in one byte at most, the remainders tell whether they do. -/
theorem eq_of_foldl_byte_eq {pre post : List UInt8} {x y : UInt8} {c : UInt32}
    (h : (pre ++ x :: post).foldl byte c = (pre ++ y :: post).foldl byte c) : x = y := by
  simp only [List.foldl_append, List.foldl_cons] at h
  exact UInt8.toUInt32_inj.mp ((UInt32.xor_right_inj _).mp (xor_eq_of_byte_eq (foldl_byte_inj h)))

end Crc32

namespace Bytes

variable {a b : Bytes} {i j : Nat} {mask : UInt8}

/-- `b` with the byte at `i` changed by `mask`. -/
def flip (b : Bytes) (i : Nat) (mask : UInt8) : Bytes := ⟨b.data.modify i (· ^^^ mask)⟩

@[simp] theorem size_flip (b : Bytes) (i : Nat) (mask : UInt8) : (b.flip i mask).size = b.size :=
  Array.size_modify

theorem at0_flip (h : j < b.size) : (b.flip i mask).at0 j = if i = j then b.at0 j ^^^ mask else b.at0 j := by
  rw [at0, at0, dif_pos h, dif_pos (by rw [size_flip]; exact h)]
  exact Array.getElem_modify (by simpa using h)

theorem toList_flip (h : i < b.size) (mask : UInt8) :
    (b.flip i mask).data.toList = b.data.toList.take i ++ (b[i] ^^^ mask) :: b.data.toList.drop (i + 1) := by
  rw [flip, Array.toList_modify]
  exact List.modify_eq_take_cons_drop h

/-- One changed byte changes the checksum. -/
theorem checksum_flip_ne (h : i < b.size) (hmask : mask ≠ 0) :
    Crc32.checksum (b.flip i mask) ≠ Crc32.checksum b := by
  intro he
  have hremainder := (UInt32.xor_left_inj _).mp he
  simp only [Crc32.update, foldl_eq, toList_flip h] at hremainder
  have hself : b.data.toList.take i ++ b[i] :: b.data.toList.drop (i + 1) = b.data.toList := by
    rw [← drop_toList h, List.take_append_drop]
  have hbyte := Crc32.eq_of_foldl_byte_eq (hremainder.trans (congrArg (List.foldl Crc32.byte _) hself.symm))
  exact hmask ((UInt8.xor_right_inj b[i]).mp (hbyte.trans UInt8.xor_zero.symm))

theorem ext_at0 (hsize : a.size = b.size) (h : ∀ i < a.size, a.at0 i = b.at0 i) : a = b :=
  ByteArray.ext_getElem hsize fun i ha hb => by
    have hi := h i ha
    rwa [at0, at0, dif_pos ha, dif_pos hb] at hi

theorem flip_append_left (h : i < a.size) (b : Bytes) : (a ++ b).flip i mask = a.flip i mask ++ b := by
  apply ext_at0
  · simp only [size_flip, ByteArray.size_append]
  intro j hj
  rw [size_flip] at hj
  rw [at0_flip hj]
  by_cases hja : j < a.size
  · rw [at0_append_left hja, at0_append_left (by rwa [size_flip]), at0_flip hja]
  · obtain ⟨k, rfl⟩ := Nat.exists_eq_add_of_le (Nat.le_of_not_lt hja)
    have hright := at0_append_right (a.flip i mask) b k
    rw [size_flip] at hright
    rw [if_neg (by omega), hright, at0_append_right]

theorem flip_append_right (a b : Bytes) (i : Nat) (mask : UInt8) :
    (a ++ b).flip (a.size + i) mask = a ++ b.flip i mask := by
  apply ext_at0
  · simp only [size_flip, ByteArray.size_append]
  intro j hj
  rw [size_flip] at hj
  rw [at0_flip hj]
  by_cases hja : j < a.size
  · rw [if_neg (by omega), at0_append_left hja, at0_append_left hja]
  · obtain ⟨k, rfl⟩ := Nat.exists_eq_add_of_le (Nat.le_of_not_lt hja)
    rw [ByteArray.size_append] at hj
    simp only [at0_append_right, Nat.add_right_inj, at0_flip (b := b) (j := k) (by omega)]

theorem or_eq_xor_bytes (x y z w : UInt8) :
    x.toUInt32 ||| y.toUInt32 <<< 8 ||| z.toUInt32 <<< 16 ||| w.toUInt32 <<< 24 =
      x.toUInt32 ^^^ y.toUInt32 <<< 8 ^^^ z.toUInt32 <<< 16 ^^^ w.toUInt32 <<< 24 := by
  apply UInt32.toBitVec_inj.mp
  apply BitVec.eq_of_getLsbD_eq
  intro i hi
  simp only [UInt32.toBitVec_or, UInt32.toBitVec_xor, UInt8.toBitVec_toUInt32, UInt32.toBitVec_shiftLeft,
    BitVec.getLsbD_or, BitVec.getLsbD_xor, BitVec.getLsbD_setWidth,
    show UInt32.toBitVec 8 % 32 = 8#32 from rfl, show UInt32.toBitVec 16 % 32 = 16#32 from rfl,
    show UInt32.toBitVec 24 % 32 = 24#32 from rfl, BitVec.shiftLeft_eq', BitVec.getLsbD_shiftLeft,
    BitVec.toNat_ofNat, Nat.reducePow, Nat.reduceMod]
  -- no bit belongs to two of the bytes
  have hnone (v : UInt8) {k : Nat} (hk : 8 ≤ k) : v.toBitVec.getLsbD k = false := BitVec.getLsbD_of_ge _ _ hk
  by_cases h8 : i < 8
  · simp [hi, h8, show i < 16 by omega, show i < 24 by omega]
  by_cases h16 : i < 16
  · simp [hi, h8, h16, show i < 24 by omega, hnone x (Nat.le_of_not_lt h8)]
  by_cases h24 : i < 24
  · simp [hi, h8, h16, h24, hnone x (Nat.le_of_not_lt h8), hnone y (k := i - 8) (by omega)]
  · simp [hi, h8, h16, h24, hnone x (Nat.le_of_not_lt h8), hnone y (k := i - 8) (by omega),
      hnone z (k := i - 16) (by omega)]

theorem xor_right_comm (u v w : UInt32) : u ^^^ v ^^^ w = u ^^^ w ^^^ v := by ac_rfl

/-- A word is changed where its byte is. -/
theorem uint32LE_flip (h : 4 ≤ b.size) (hi : i < 4) (mask : UInt8) :
    (b.flip i mask).uint32LE 0 = b.uint32LE 0 ^^^ mask.toUInt32 <<< UInt32.ofNat (8 * i) := by
  simp only [uint32LE, or_eq_xor_bytes, Nat.zero_add, at0_flip (b := b) (j := 0) (by omega),
    at0_flip (b := b) (j := 1) (by omega), at0_flip (b := b) (j := 2) (by omega), at0_flip (b := b) (j := 3) (by omega)]
  obtain rfl | rfl | rfl | rfl : i = 0 ∨ i = 1 ∨ i = 2 ∨ i = 3 := by omega
  all_goals
    simp only [↓reduceIte, Nat.reduceEqDiff, UInt8.toUInt32_xor, UInt32.shiftLeft_xor, UInt32.shiftLeft_zero,
      Nat.reduceMul, UInt32.reduceOfNat, ← UInt32.xor_assoc, xor_right_comm _ mask.toUInt32,
      xor_right_comm _ (mask.toUInt32 <<< _)]

theorem toNat_shiftLeft_byte (hi : i < 4) (mask : UInt8) :
    (mask.toUInt32 <<< UInt32.ofNat (8 * i)).toNat = mask.toNat <<< (8 * i) := by
  have hmask : mask.toNat < 2 ^ 8 := mask.toNat_lt
  have hshift : (UInt32.ofNat (8 * i)).toNat = 8 * i :=
    UInt32.toNat_ofNat_of_lt' (Nat.lt_of_lt_of_le (by omega : 8 * i < 32) (by decide))
  have hsmall : mask.toNat <<< (8 * i) < 2 ^ 32 := by
    rw [Nat.shiftLeft_eq]
    calc mask.toNat * 2 ^ (8 * i) < 2 ^ 8 * 2 ^ (8 * i) := Nat.mul_lt_mul_of_pos_right hmask (Nat.two_pow_pos _)
      _ = 2 ^ (8 + 8 * i) := (Nat.pow_add ..).symm
      _ ≤ 2 ^ 32 := Nat.pow_le_pow_right (by decide) (by omega)
  rw [UInt32.toNat_shiftLeft, hshift, UInt8.toNat_toUInt32, Nat.mod_eq_of_lt (by omega : 8 * i < 32),
    Nat.mod_eq_of_lt hsmall]

end Bytes

namespace Frame

variable {payload : Bytes} {i : Nat} {mask : UInt8}

theorem checked_eq_error {trailer : UInt32} (h : trailer ≠ Crc32.checksum payload) :
    checked payload trailer = .error (.checksumMismatch trailer (Crc32.checksum payload)) := by
  simp only [checked, if_neg h]

/-- The length that a frame of `payload` has after a change to byte `i`. -/
def damagedLength (payload : Bytes) (i : Nat) (mask : UInt8) : Nat := payload.size ^^^ mask.toNat <<< (8 * i)

/-- The change is to the length, and behind as many bytes as the new one tells stand four that are their
checksum. -/
def Unnoticed (payload : Bytes) (i : Nat) (mask : UInt8) : Prop :=
  i < 4 ∧ damagedLength payload i mask < payload.size ∧
    Bytes.uint32LE (payload ++ Bytes.ofUInt32LE (Crc32.checksum payload)) (damagedLength payload i mask) =
      Crc32.checksum (payload.slice 0 (damagedLength payload i mask))

theorem shiftLeft_ne_zero (hmask : mask ≠ 0) (i : Nat) : mask.toNat <<< (8 * i) ≠ 0 := by
  rw [Nat.shiftLeft_eq, Ne, Nat.mul_eq_zero, not_or]
  exact ⟨fun h => hmask (UInt8.toNat_inj.mp h), Nat.ne_of_gt (Nat.two_pow_pos _)⟩

theorem damagedLength_ne (hmask : mask ≠ 0) : damagedLength payload i mask ≠ payload.size := by
  intro h
  have hcancel := congrArg (payload.size ^^^ ·) h
  simp only [damagedLength, ← Nat.xor_assoc, Nat.xor_self, Nat.zero_xor] at hcancel
  exact shiftLeft_ne_zero hmask i hcancel

theorem toNat_length {n : Nat} (h : n ≤ maxLength) : (UInt32.ofNat n).toNat = n :=
  UInt32.toNat_ofNat_of_lt' (Nat.lt_of_le_of_lt h (by decide))

theorem uint32LE_ofUInt32LE (w : UInt32) : Bytes.uint32LE (Bytes.ofUInt32LE w) 0 = w :=
  (Bytes.holds_self _).uint32LE_eq

/-- A frame whose length is right stands or falls with its checksum. -/
theorem decode_of_length {trailer : Bytes} (hmax : payload.size ≤ maxLength) (ht : trailer.size = 4) :
    decode (Bytes.ofUInt32LE (UInt32.ofNat payload.size) ++ (payload ++ trailer)) =
      (checked payload (trailer.uint32LE 0)).map (·, overhead + payload.size) := by
  have hword : (payload ++ trailer).uint32LE payload.size = trailer.uint32LE 0 :=
    Bytes.uint32LE_append_right payload trailer 0
  rw [decode_append_of_head (by simp), uint32LE_ofUInt32LE, toNat_length hmax, if_neg (by omega),
    if_neg (by rw [ByteArray.size_append]; omega), Bytes.slice_append_left _ (by omega), Bytes.slice_self, hword]

/-- A frame whose length is changed is cut by the new one. -/
theorem decode_flip_length {b : Bytes} (hb : encode payload = .ok b) (hi : i < 4) (mask : UInt8) :
    decode (b.flip i mask) =
      if maxLength < damagedLength payload i mask then .error (.tooLarge (damagedLength payload i mask))
      else if payload.size < damagedLength payload i mask then .error .truncated
      else (checked (payload.slice 0 (damagedLength payload i mask))
        (Bytes.uint32LE (payload ++ Bytes.ofUInt32LE (Crc32.checksum payload)) (damagedLength payload i mask))).map
          (·, overhead + damagedLength payload i mask) := by
  obtain ⟨hmax, rfl⟩ := encode_eq_ok_iff.mp hb
  have hlength : (Bytes.uint32LE (Bytes.flip (Bytes.ofUInt32LE (UInt32.ofNat payload.size)) i mask) 0).toNat =
      damagedLength payload i mask := by
    rw [Bytes.uint32LE_flip (by simp) hi, uint32LE_ofUInt32LE, UInt32.toNat_xor, toNat_length hmax,
      Bytes.toNat_shiftLeft_byte hi, damagedLength]
  rw [ByteArray.append_assoc, Bytes.flip_append_left (by simpa using hi), decode_append_of_head (by simp), hlength]
  simp only [gt_iff_lt, ByteArray.size_append, Bytes.size_ofUInt32LE, Nat.add_lt_add_iff_right]
  by_cases hlong : payload.size < damagedLength payload i mask
  · simp only [if_pos hlong]
  · rw [Bytes.slice_append_left _ (by omega)]

/-- A change to the payload is found by its checksum. -/
theorem decode_flip_payload {b : Bytes} (hb : encode payload = .ok b) (hi : i < payload.size) (hmask : mask ≠ 0) :
    decode (b.flip (4 + i) mask) =
      .error (.checksumMismatch (Crc32.checksum payload) (Crc32.checksum (payload.flip i mask))) := by
  obtain ⟨hmax, rfl⟩ := encode_eq_ok_iff.mp hb
  have hflip := Bytes.flip_append_right (Bytes.ofUInt32LE (UInt32.ofNat payload.size))
    (payload ++ Bytes.ofUInt32LE (Crc32.checksum payload)) i mask
  have hsize := Bytes.size_flip payload i mask
  rw [Bytes.size_ofUInt32LE, ← ByteArray.append_assoc, Bytes.flip_append_left hi, ← hsize] at hflip
  have hchecked := checked_eq_error (Bytes.checksum_flip_ne hi hmask).symm
  rw [hsize] at hflip
  rw [hflip, ← hsize, decode_of_length (by rwa [hsize]) (by simp), uint32LE_ofUInt32LE, hchecked]
  rfl

/-- A change to the checksum is found by the payload. -/
theorem decode_flip_trailer {b : Bytes} (hb : encode payload = .ok b) (hi : i < 4) (hmask : mask ≠ 0) :
    ∃ trailer, decode (b.flip (4 + payload.size + i) mask) =
      .error (.checksumMismatch trailer (Crc32.checksum payload)) := by
  obtain ⟨hmax, rfl⟩ := encode_eq_ok_iff.mp hb
  have hflip := Bytes.flip_append_right (Bytes.ofUInt32LE (UInt32.ofNat payload.size) ++ payload)
    (Bytes.ofUInt32LE (Crc32.checksum payload)) i mask
  rw [ByteArray.size_append, Bytes.size_ofUInt32LE, ByteArray.append_assoc (c := Bytes.flip _ _ _)] at hflip
  have hword := Bytes.uint32LE_flip (b := Bytes.ofUInt32LE (Crc32.checksum payload)) (by simp) hi mask
  rw [uint32LE_ofUInt32LE] at hword
  have hne : Bytes.uint32LE (Bytes.flip (Bytes.ofUInt32LE (Crc32.checksum payload)) i mask) 0 ≠
      Crc32.checksum payload := by
    intro h
    have hzero := (UInt32.xor_right_inj _).mp ((hword.symm.trans h).trans UInt32.xor_zero.symm)
    exact shiftLeft_ne_zero hmask i ((Bytes.toNat_shiftLeft_byte hi mask).symm.trans (congrArg UInt32.toNat hzero))
  rw [hflip, decode_of_length hmax (by simp), checked_eq_error hne]
  exact ⟨_, rfl⟩

theorem decode_of_unnoticed {b : Bytes} (hb : encode payload = .ok b) (h : Unnoticed payload i mask) :
    decode (b.flip i mask) =
      .ok (payload.slice 0 (damagedLength payload i mask), overhead + damagedLength payload i mask) := by
  obtain ⟨hi, hlt, hword⟩ := h
  have hmax := (encode_eq_ok_iff.mp hb).1
  rw [decode_flip_length hb hi, if_neg (by omega), if_neg (by omega)]
  simp only [checked, if_pos hword]
  rfl

theorem decode_flip_covered {b : Bytes} (hb : encode payload = .ok b) (hlength : 4 ≤ i) (hi : i < b.size)
    (hmask : mask ≠ 0) : ∃ expected actual, decode (b.flip i mask) = .error (.checksumMismatch expected actual) := by
  have hsize : b.size = 4 + payload.size + 4 := by simp [(encode_eq_ok_iff.mp hb).2]
  by_cases hpayload : i < 4 + payload.size
  · obtain ⟨j, rfl⟩ := Nat.exists_eq_add_of_le hlength
    exact ⟨_, _, decode_flip_payload hb (by omega) hmask⟩
  · obtain ⟨j, rfl⟩ := Nat.exists_eq_add_of_le (Nat.le_of_not_lt hpayload)
    obtain ⟨trailer, he⟩ := decode_flip_trailer hb (by omega : j < 4) hmask
    exact ⟨_, _, he⟩

theorem decode_of_noticed {b : Bytes} (hb : encode payload = .ok b) (hi : i < b.size) (hmask : mask ≠ 0)
    (h : ¬ Unnoticed payload i mask) : ∃ e, decode (b.flip i mask) = .error e := by
  by_cases hlength : i < 4
  · rw [decode_flip_length hb hlength]
    split
    · exact ⟨_, rfl⟩
    split
    · exact ⟨_, rfl⟩
    have hne : Bytes.uint32LE (payload ++ Bytes.ofUInt32LE (Crc32.checksum payload)) (damagedLength payload i mask) ≠
        Crc32.checksum (payload.slice 0 (damagedLength payload i mask)) := fun he =>
      h ⟨hlength, Nat.lt_of_le_of_ne (by omega) (damagedLength_ne hmask), he⟩
    rw [checked_eq_error hne]
    exact ⟨_, rfl⟩
  · obtain ⟨expected, actual, he⟩ := decode_flip_covered hb (Nat.le_of_not_lt hlength) hi hmask
    exact ⟨_, he⟩

/-- What decoding refuses, no source can hand out as a payload. -/
theorem read_of_refused {s : Source} {e : FramingError} (h : decode s.rest = .error e) :
    ∃ e' s', Frame.read s = (.error e', s') := by
  cases hread : Frame.read s with
  | mk result s' =>
    cases result with
    | error e' => exact ⟨e', s', rfl⟩
    | ok got =>
      obtain ⟨b, hrest, -, hdecode⟩ := read_eq_ok hread
      have hgot := hdecode s'.rest
      rw [← hrest, h] at hgot
      cases hgot

/-- One changed byte in a frame is noticed, by its checksum wherever it is not in the length, and whatever
source hands out the frame; except where a shorter length leaves bytes that are in order by themselves, and
then the front of the payload is taken for all of it. -/
theorem decode_flip (hp : payload.size ≤ maxLength) :
    ∃ b, encode payload = .ok b ∧ ∀ i < b.size, ∀ mask : UInt8, mask ≠ 0 →
      (¬ Unnoticed payload i mask → (∃ e, decode (b.flip i mask) = .error e) ∧
        ∀ s : Source, s.rest = b.flip i mask → ∃ e s', Frame.read s = (.error e, s')) ∧
      (4 ≤ i → ∃ expected actual, decode (b.flip i mask) = .error (.checksumMismatch expected actual)) ∧
      (Unnoticed payload i mask →
        let n := damagedLength payload i mask
        n < payload.size ∧ decode (b.flip i mask) = .ok (payload.slice 0 n, overhead + n) ∧
          ∀ s : Source, s.Steady → s.rest = b.flip i mask → (Frame.read s).1 = .ok (payload.slice 0 n)) := by
  obtain ⟨b, hb⟩ : ∃ b, encode payload = .ok b := ⟨_, encode_eq_ok_iff.mpr ⟨hp, rfl⟩⟩
  refine ⟨b, hb, fun i hi mask hmask => ⟨fun h => ?_, fun h => decode_flip_covered hb h hi hmask, fun h => ?_⟩⟩
  · obtain ⟨e, he⟩ := decode_of_noticed hb hi hmask h
    exact ⟨⟨e, he⟩, fun s hs => read_of_refused (hs ▸ he)⟩
  · have hdecode := decode_of_unnoticed hb h
    refine ⟨h.2.1, hdecode, fun s hs hrest => ?_⟩
    rw [read_eq_decode hs, hrest, hdecode]
    rfl

/-- Four zeros in a frame, damaged anywhere. -/
theorem decode_flip_of_zeros :
    let payload : Bytes := ⟨#[0, 0, 0, 0]⟩
    payload.size ≤ maxLength ∧ ∃ b, encode payload = .ok b ∧ ∀ i < b.size, ∀ mask : UInt8, mask ≠ 0 →
      (¬ Unnoticed payload i mask → (∃ e, decode (b.flip i mask) = .error e) ∧
        ∀ s : Source, s.rest = b.flip i mask → ∃ e s', Frame.read s = (.error e, s')) ∧
      (4 ≤ i → ∃ expected actual, decode (b.flip i mask) = .error (.checksumMismatch expected actual)) ∧
      (Unnoticed payload i mask →
        let n := damagedLength payload i mask
        n < payload.size ∧ decode (b.flip i mask) = .ok (payload.slice 0 n, overhead + n) ∧
          ∀ s : Source, s.Steady → s.rest = b.flip i mask → (Frame.read s).1 = .ok (payload.slice 0 n)) := by
  intro payload
  have hp : payload.size ≤ maxLength := by decide
  exact ⟨hp, decode_flip hp⟩

/-- Four zeros are the checksum of no bytes, so a frame of them whose length becomes zero passes for an empty
one. -/
theorem decode_emptied_zeros :
    ∃ b, encode ⟨#[0, 0, 0, 0]⟩ = .ok b ∧ decode (b.flip 0 4) = .ok (ByteArray.empty, overhead) ∧
      (Frame.read (Source.ofBytes (b.flip 0 4))).1 = .ok ByteArray.empty := by
  refine ⟨_, rfl, ?_, ?_⟩ <;> rfl

end Frame
end ChunkRelay
