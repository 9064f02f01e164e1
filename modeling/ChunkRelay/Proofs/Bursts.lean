import ChunkRelay.Proofs.Damage
import Mathlib.Logic.Function.Iterate

/-! Bursts of damage. Four bytes go into a checksum as one word, and no two words leave the same remainder. Behind
the length of a frame stand its payload and the checksum of it, which leave one remainder in every frame, so changes
that lie within four bytes of each other are always noticed. -/
namespace ChunkRelay
namespace Crc32

variable {a b : Bytes} {c d w : UInt32} {k n : Nat}

theorem shift_xor (c d : UInt32) : shift (c ^^^ d) = shift c ^^^ shift d := by
  apply UInt32.toBitVec_inj.mp
  apply BitVec.eq_of_getLsbD_eq
  intro i _
  simp only [UInt32.toBitVec_xor, BitVec.getLsbD_xor, BitVec.getElem_xor, getLsbD_shift, Bool.and_xor_distrib_right,
    Bool.xor_assoc, Bool.xor_left_comm (d.toBitVec.getLsbD (i + 1))]

theorem iterate_shift_xor (n : Nat) (c d : UInt32) : shift^[n] (c ^^^ d) = shift^[n] c ^^^ shift^[n] d := by
  induction n generalizing c d with
  | zero => rfl
  | succ n ih => simp only [Function.iterate_succ_apply, shift_xor, ih]

theorem iterate_shift_inj (h : shift^[n] c = shift^[n] d) : c = d :=
  Function.Injective.iterate (fun _ _ => shift_inj) n h

/-- Nothing is divided out of bits that are clear. -/
theorem getLsbD_iterate_shift (h : ∀ i < n, c.toBitVec.getLsbD i = false) (i : Nat) :
    (shift^[n] c).toBitVec.getLsbD i = c.toBitVec.getLsbD (i + n) := by
  induction n generalizing c with
  | zero => rfl
  | succ n ih =>
    have hlow : c.toBitVec[0] = false := h 0 n.succ_pos
    have hshift (j : Nat) : (shift c).toBitVec.getLsbD j = c.toBitVec.getLsbD (j + 1) := by
      rw [getLsbD_shift, hlow, Bool.false_and, Bool.xor_false]
    have hclear : ∀ j < n, (shift c).toBitVec.getLsbD j = false := fun j hj => by
      rw [hshift]
      exact h (j + 1) (Nat.succ_lt_succ hj)
    rw [Function.iterate_succ_apply, ih hclear, hshift, Nat.add_assoc]

/-- A byte that stands higher in a word comes down to where the next byte goes in. -/
theorem iterate_shift_byte (x : UInt8) (hn : n ≤ 24) : shift^[n] (x.toUInt32 <<< UInt32.ofNat n) = x.toUInt32 := by
  have hmod : n % 32 = n := Nat.mod_eq_of_lt (by omega)
  have hbits (i : Nat) : (x.toUInt32 <<< UInt32.ofNat n).toBitVec.getLsbD i =
      (decide (i < 32) && !decide (i < n) && x.toUInt32.toBitVec.getLsbD (i - n)) := by
    simp [UInt32.toBitVec_shiftLeft, hmod]
  apply UInt32.toBitVec_inj.mp
  apply BitVec.eq_of_getLsbD_eq
  intro i hi
  rw [getLsbD_iterate_shift (fun j hj => by rw [hbits]; simp [hj]), hbits]
  by_cases h8 : i < 8
  · simp [show i + n < 32 by omega]
  · have hnone : x.toBitVec.getLsbD i = false := BitVec.getLsbD_of_ge _ _ (Nat.le_of_not_lt h8)
    simp [hnone]

/-- A byte that goes in after `n` bits might have stood `n` bits higher from the start. -/
theorem byte_iterate_shift (c : UInt32) (x : UInt8) (hn : n ≤ 24) :
    byte (shift^[n] c) x = shift^[8 + n] (c ^^^ x.toUInt32 <<< UInt32.ofNat n) := by
  have hbyte : byte (shift^[n] c) x = shift^[8] (shift^[n] c ^^^ x.toUInt32) := rfl
  rw [hbyte, Function.iterate_add_apply, iterate_shift_xor n, iterate_shift_byte x hn]

theorem update_append (c : UInt32) (a b : Bytes) : update c (a ++ b) = update (update c a) b := by
  simp only [update, Bytes.foldl_eq, ByteArray.data_append, Array.toList_append, List.foldl_append]

theorem update_inj (h : update c b = update d b) : c = d := by
  simp only [update, Bytes.foldl_eq] at h
  exact foldl_byte_inj h

/-- Four bytes go in as the word that they are. -/
theorem update_word (c w : UInt32) : update c (Bytes.ofUInt32LE w) = shift^[32] (c ^^^ w) := by
  have hword := (Bytes.or_eq_xor_bytes _ _ _ _).symm.trans (Bytes.or_bytes w)
  have hfirst : byte c w.toUInt8 = shift^[8] (c ^^^ w.toUInt8.toUInt32) := rfl
  calc update c (Bytes.ofUInt32LE w)
      = byte (byte (byte (byte c w.toUInt8) (w >>> 8).toUInt8) (w >>> 16).toUInt8) (w >>> 24).toUInt8 := by
        rw [update, Bytes.foldl_eq]
        rfl
    _ = shift^[32] (c ^^^ w.toUInt8.toUInt32 ^^^ (w >>> 8).toUInt8.toUInt32 <<< 8 ^^^
          (w >>> 16).toUInt8.toUInt32 <<< 16 ^^^ (w >>> 24).toUInt8.toUInt32 <<< 24) := by
        rw [hfirst, byte_iterate_shift (n := 8) _ _ (by decide), byte_iterate_shift (n := 16) _ _ (by decide),
          byte_iterate_shift (n := 24) _ _ (by decide)]
        rfl
    _ = shift^[32] (c ^^^ w) := by
        simp only [UInt32.xor_assoc] at hword ⊢
        rw [hword]

/-- Whatever bytes and their checksum stand one behind the other, the remainder is the same. -/
theorem update_checksum (b : Bytes) :
    update 0xffffffff (b ++ Bytes.ofUInt32LE (checksum b)) = shift^[32] 0xffffffff := by
  rw [update_append, update_word, checksum, ← UInt32.xor_assoc, UInt32.xor_self, UInt32.zero_xor]

end Crc32

namespace Bytes

variable {a b : Bytes} {i k n : Nat}

theorem or_bytes_inj {x y z w x' y' z' w' : UInt8}
    (h : x.toUInt32 ||| y.toUInt32 <<< 8 ||| z.toUInt32 <<< 16 ||| w.toUInt32 <<< 24 =
      x'.toUInt32 ||| y'.toUInt32 <<< 8 ||| z'.toUInt32 <<< 16 ||| w'.toUInt32 <<< 24) :
    x = x' ∧ y = y' ∧ z = z' ∧ w = w' := by
  have hbit (i : Nat) := congrArg (fun u : UInt32 => u.toBitVec.getLsbD i) h
  simp only [getLsbD_or_bytes] at hbit
  have hbyte {u v : UInt8} (huv : ∀ i < 8, u.toBitVec.getLsbD i = v.toBitVec.getLsbD i) : u = v :=
    UInt8.toBitVec_inj.mp (BitVec.eq_of_getLsbD_eq huv)
  refine ⟨hbyte fun i hi => ?_, hbyte fun i hi => ?_, hbyte fun i hi => ?_, hbyte fun i hi => ?_⟩
  · simpa [hi] using hbit i
  · simpa [show ¬ 8 + i < 8 by omega, show 8 + i < 16 by omega] using hbit (8 + i)
  · simpa [show ¬ 16 + i < 8 by omega, show ¬ 16 + i < 16 by omega, show 16 + i < 24 by omega] using hbit (16 + i)
  · simpa [show ¬ 24 + i < 8 by omega, show ¬ 24 + i < 16 by omega, show ¬ 24 + i < 24 by omega] using hbit (24 + i)

theorem uint32LE_inj (ha : a.size = 4) (hb : b.size = 4) (h : a.uint32LE 0 = b.uint32LE 0) : a = b := by
  obtain ⟨h0, h1, h2, h3⟩ := or_bytes_inj h
  apply ext_at0 (ha.trans hb.symm)
  intro i hi
  obtain rfl | rfl | rfl | rfl : i = 0 ∨ i = 1 ∨ i = 2 ∨ i = 3 := by omega
  · exact h0
  · exact h1
  · exact h2
  · exact h3

/-- Four bytes are written as the word that is read from them. -/
theorem ofUInt32LE_uint32LE (h : b.size = 4) : ofUInt32LE (b.uint32LE 0) = b :=
  uint32LE_inj (size_ofUInt32LE _) h (Frame.uint32LE_ofUInt32LE _)

theorem at0_slice {j : Nat} (h : j < (b.slice i n).size) : (b.slice i n).at0 j = b.at0 (i + j) := by
  have hsize := size_slice_eq b i n
  rw [at0, dif_pos h, at0, dif_pos (by omega)]
  exact ByteArray.getElem_extract h

theorem slice_of_le (h : b.size ≤ n) : b.slice 0 n = b := by
  apply ByteArray.ext
  rw [slice, ByteArray.data_extract]
  exact Array.extract_eq_self_of_le (by simpa using h)

/-- `b` has the length of `a`, and where the two differ lies within four bytes from position `k` on. -/
structure Near (k : Nat) (a b : Bytes) : Prop where
  size_eq : b.size = a.size
  inside : ∀ i, b.at0 i ≠ a.at0 i → k ≤ i ∧ i < k + 4

theorem Near.slice_eq (h : Near k a b) (hout : i + n ≤ k ∨ k + 4 ≤ i) : b.slice i n = a.slice i n := by
  have hsize : (b.slice i n).size = (a.slice i n).size := by rw [size_slice_eq, size_slice_eq, h.size_eq]
  apply ext_at0 hsize
  intro j hj
  have hlt := size_slice_le b i n
  rw [at0_slice hj, at0_slice (hsize ▸ hj)]
  by_contra hne
  have hinside := h.inside _ hne
  omega

/-- Behind bytes that are the same the rest is as near. -/
theorem Near.right {p : Bytes} (h : Near k (p ++ a) (p ++ b)) : Near (k - p.size) a b where
  size_eq := by simpa [ByteArray.size_append] using h.size_eq
  inside i hi := by
    have hinside := h.inside (p.size + i) (by rwa [at0_append_right, at0_append_right])
    omega

/-- The window of a change may be moved back, so that all of it lies in the bytes that are there. -/
theorem Near.fit (h : Near k a b) (hsize : 4 ≤ a.size) : Near (min k (a.size - 4)) a b where
  size_eq := h.size_eq
  inside i hi := by
    have hinside := h.inside i hi
    have hlt : i < a.size := by
      by_contra hge
      refine hi ?_
      rw [at0, at0, dif_neg hge, dif_neg (by rw [h.size_eq]; exact hge)]
    omega

/-- Bytes as those before, in and behind a window of four. -/
theorem eq_append_window (b : Bytes) (k : Nat) : b = b.slice 0 k ++ (b.slice k 4 ++ b.slice (k + 4) b.size) := by
  have hfront := slice_append_slice b 0 k (4 + b.size)
  rw [Nat.zero_add] at hfront
  rw [slice_append_slice, hfront, slice_of_le (by omega)]

/-- Bytes that are near to each other leave different remainders, unless they are the same. -/
theorem Near.eq_of_update_eq (h : Near k a b) (hsize : 4 ≤ a.size) {c : UInt32}
    (hc : Crc32.update c b = Crc32.update c a) : b = a := by
  have hfit := h.fit hsize
  have hk : min k (a.size - 4) + 4 ≤ a.size := by omega
  generalize min k (a.size - 4) = j at hfit hk
  have hwindow (x : Bytes) (hx : x.size = a.size) : (x.slice j 4).size = 4 := by rw [size_slice_eq]; omega
  have hleft := hfit.slice_eq (i := 0) (n := j) (.inl (by omega))
  have hright := hfit.slice_eq (i := j + 4) (n := a.size) (.inr (by omega))
  have ha := eq_append_window a j
  have hb := eq_append_window b j
  rw [hleft, h.size_eq, hright] at hb
  rw [ha, hb] at hc
  simp only [Crc32.update_append] at hc
  have hword := Crc32.update_inj hc
  rw [← ofUInt32LE_uint32LE (hwindow a rfl), ← ofUInt32LE_uint32LE (hwindow b h.size_eq), Crc32.update_word,
    Crc32.update_word] at hword
  have heq := (UInt32.xor_right_inj _).mp (Crc32.iterate_shift_inj hword)
  rw [hb, uint32LE_inj (hwindow b h.size_eq) (hwindow a rfl) heq]
  exact ha.symm

end Bytes

namespace Frame

open Bytes (Near)

variable {payload b b' : Bytes} {k : Nat}

/-- Changes behind the length, within four bytes of each other, are found by the checksum. -/
theorem decode_of_near (hb : encode payload = .ok b) (hk : 4 ≤ k) (h : Near k b b') (hne : b' ≠ b) :
    ∃ expected actual, decode b' = .error (.checksumMismatch expected actual) := by
  obtain ⟨hmax, rfl⟩ := encode_eq_ok_iff.mp hb
  rw [ByteArray.append_assoc] at h hne
  have hsize : b'.size = 4 + (payload.size + 4) := by
    simpa only [ByteArray.size_append, Bytes.size_ofUInt32LE] using h.size_eq
  -- the length is as it was, so the payload and the checksum are taken from where they were
  have hhead : b'.slice 0 4 = Bytes.ofUInt32LE (UInt32.ofNat payload.size) := by
    rw [h.slice_eq (.inl (by omega)), Bytes.slice_append_left _ (by simp)]
    exact Bytes.slice_self _
  obtain ⟨body, hbody⟩ : ∃ body, body = b'.slice 4 payload.size := ⟨_, rfl⟩
  obtain ⟨trailer, htrailer⟩ : ∃ trailer, trailer = b'.slice (4 + payload.size) 4 := ⟨_, rfl⟩
  have hbodySize : body.size = payload.size := by rw [hbody, Bytes.size_slice_eq]; omega
  have htrailerSize : trailer.size = 4 := by rw [htrailer, Bytes.size_slice_eq]; omega
  have hparts : b' = Bytes.ofUInt32LE (UInt32.ofNat payload.size) ++ (body ++ trailer) := by
    have hfront := Bytes.slice_append_slice b' 0 4 (payload.size + 4)
    rw [Nat.zero_add, hhead] at hfront
    rw [hbody, htrailer, Bytes.slice_append_slice, hfront, Bytes.slice_of_le (by omega)]
  have hmismatch : trailer.uint32LE 0 ≠ Crc32.checksum body := by
    intro heq
    have hremainder := Crc32.update_checksum body
    rw [← heq, Bytes.ofUInt32LE_uint32LE htrailerSize, ← Crc32.update_checksum payload] at hremainder
    have hcovered := (hparts ▸ h).right.eq_of_update_eq (by simp [ByteArray.size_append]) hremainder
    exact hne (by rw [hparts, hcovered])
  have hfits : body.size ≤ maxLength := by rwa [hbodySize]
  have hdecode := decode_of_length hfits htrailerSize
  rw [hbodySize, ← hparts, checked_eq_error hmismatch] at hdecode
  exact ⟨_, _, hdecode⟩

/-- Changes behind the length of a frame that lie within four bytes of each other are noticed by its checksum,
wherever they lie, and whatever source hands out the frame. -/
theorem decode_of_burst (hp : payload.size ≤ maxLength) :
    ∃ b, encode payload = .ok b ∧ ∀ k ≥ 4, ∀ b', b' ≠ b → Near k b b' →
      ∃ expected actual, decode b' = .error (.checksumMismatch expected actual) ∧
        ∀ s : Source, s.Steady → s.rest = b' → (Frame.read s).1 = .error (.checksumMismatch expected actual) := by
  obtain ⟨b, hb⟩ : ∃ b, encode payload = .ok b := ⟨_, encode_eq_ok_iff.mpr ⟨hp, rfl⟩⟩
  refine ⟨b, hb, fun k hk b' hne h => ?_⟩
  obtain ⟨expected, actual, hdecode⟩ := decode_of_near hb hk h hne
  refine ⟨expected, actual, hdecode, fun s hs hrest => ?_⟩
  rw [read_eq_decode hs, hrest, hdecode]
  rfl

/-- The last two bytes of a payload and the first two of its checksum are damaged. -/
theorem decode_of_straddling_burst :
    let payload : Bytes := ⟨#[1, 2, 3]⟩
    let b' : Bytes := ⟨#[3, 0, 0, 0, 1, 0, 0, 0, 0, 0xbc, 0x55]⟩
    payload.size ≤ maxLength ∧ ∃ b, encode payload = .ok b ∧ b' ≠ b ∧ Near 5 b b' ∧
      ∃ expected actual, decode b' = .error (.checksumMismatch expected actual) ∧
        (Frame.read (Source.ofBytes b')).1 = .error (.checksumMismatch expected actual) := by
  intro payload b'
  have hp : payload.size ≤ maxLength := by decide
  have hframe : encode payload = .ok ⟨#[3, 0, 0, 0, 1, 2, 3, 0x1d, 0x80, 0xbc, 0x55]⟩ :=
    encode_eq_ok_iff.mpr ⟨hp, by decide +kernel⟩
  obtain ⟨b, hb, hburst⟩ := decode_of_burst hp
  obtain rfl := Except.ok.inj (hframe.symm.trans hb)
  have hne : b' ≠ ⟨#[3, 0, 0, 0, 1, 2, 3, 0x1d, 0x80, 0xbc, 0x55]⟩ := by decide
  have hnear : Near 5 ⟨#[3, 0, 0, 0, 1, 2, 3, 0x1d, 0x80, 0xbc, 0x55]⟩ b' := by
    refine ⟨rfl, fun i hi => ?_⟩
    have hwindow : ∀ j < 11, b'.at0 j ≠ Bytes.at0 ⟨#[3, 0, 0, 0, 1, 2, 3, 0x1d, 0x80, 0xbc, 0x55]⟩ j →
        5 ≤ j ∧ j < 5 + 4 := by decide
    by_cases hlt : i < 11
    · exact hwindow i hlt hi
    · exact absurd ((dif_neg hlt).trans (dif_neg hlt).symm) hi
  obtain ⟨expected, actual, hdecode, hread⟩ := hburst 5 (by decide) b' hne hnear
  exact ⟨hp, _, hb, hne, hnear, expected, actual, hdecode,
    hread _ (Source.steady_ofBytes b') (Source.rest_of_start rfl)⟩

end Frame
end ChunkRelay
