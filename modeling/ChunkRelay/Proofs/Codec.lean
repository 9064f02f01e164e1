import ChunkRelay.Proofs.Stream
import ChunkRelay.Wire.Record

/-! Reading back what was written. A decoder that reads a value back does so wherever the encoding
stands and whatever comes after it, so records are put together from their fields. -/
namespace ChunkRelay
namespace Bytes

/-- The bytes `x` stand at position `i` of `b`. -/
def Holds (b : Bytes) (i : Nat) (x : Bytes) : Prop := ∃ pre post, b = pre ++ x ++ post ∧ pre.size = i

theorem holds_self (b : Bytes) : Holds b 0 b := ⟨ByteArray.empty, ByteArray.empty, by simp, rfl⟩

variable {b x y : Bytes} {i : Nat}

theorem Holds.left (h : Holds b i (x ++ y)) : Holds b i x := by
  obtain ⟨pre, post, hb, hi⟩ := h
  exact ⟨pre, y ++ post, by simp [hb, ByteArray.append_assoc], hi⟩

theorem Holds.right (h : Holds b i (x ++ y)) : Holds b (i + x.size) y := by
  obtain ⟨pre, post, hb, hi⟩ := h
  exact ⟨pre ++ x, post, by simp [hb, ByteArray.append_assoc], by simp [hi]⟩

theorem Holds.le_size (h : Holds b i x) : i + x.size ≤ b.size := by
  obtain ⟨pre, post, hb, hi⟩ := h
  simp only [hb, ByteArray.size_append]
  omega

theorem Holds.slice_eq (h : Holds b i x) : b.slice i x.size = x := by
  obtain ⟨pre, post, hb, hi⟩ := h
  have hend : i + x.size = pre.size + x.size := by rw [hi]
  rw [hb, ByteArray.append_assoc, slice, hend, ← hi, ← Nat.add_zero pre.size, Nat.add_assoc, Nat.zero_add,
    ByteArray.extract_append_size_add, ByteArray.extract_append_eq_left rfl]

theorem Holds.at0_eq (h : Holds b i x) {j : Nat} (hj : j < x.size) : b.at0 (i + j) = x.at0 j := by
  have hle := h.le_size
  obtain ⟨pre, post, hb, hi⟩ := h
  subst hb hi
  rw [at0, dif_pos (by omega), at0, dif_pos hj, ByteArray.getElem_append_left (by simp; omega),
    ByteArray.getElem_append_right (by omega)]
  simp

/-! Words. -/

/-- The bits of a word are those of its bytes, one byte after the other. -/
theorem getLsbD_or_bytes (x y z w : UInt8) (i : Nat) :
    (x.toUInt32 ||| y.toUInt32 <<< 8 ||| z.toUInt32 <<< 16 ||| w.toUInt32 <<< 24).toBitVec.getLsbD i =
      if i < 8 then x.toBitVec.getLsbD i else if i < 16 then y.toBitVec.getLsbD (i - 8)
      else if i < 24 then z.toBitVec.getLsbD (i - 16) else w.toBitVec.getLsbD (i - 24) := by
  have hnone (v : UInt8) {k : Nat} (hk : 8 ≤ k) : v.toBitVec.getLsbD k = false := BitVec.getLsbD_of_ge _ _ hk
  simp only [UInt32.toBitVec_or, UInt8.toBitVec_toUInt32, UInt32.toBitVec_shiftLeft, BitVec.getLsbD_or,
    BitVec.getLsbD_setWidth, show UInt32.toBitVec 8 % 32 = 8#32 from rfl,
    show UInt32.toBitVec 16 % 32 = 16#32 from rfl, show UInt32.toBitVec 24 % 32 = 24#32 from rfl,
    BitVec.shiftLeft_eq', BitVec.getLsbD_shiftLeft, BitVec.toNat_ofNat, Nat.reducePow, Nat.reduceMod]
  by_cases h8 : i < 8
  · simp [h8, show i < 32 by omega, show i < 16 by omega, show i < 24 by omega]
  by_cases h16 : i < 16
  · simp [h8, h16, show i < 32 by omega, show i < 24 by omega, show i - 8 < 32 by omega,
      hnone x (Nat.le_of_not_lt h8)]
  by_cases h24 : i < 24
  · simp [h8, h16, h24, show i < 32 by omega, show i - 16 < 32 by omega, hnone x (Nat.le_of_not_lt h8),
      hnone y (k := i - 8) (by omega)]
  by_cases h32 : i < 32
  · simp [h8, h16, h24, h32, show i - 24 < 32 by omega, hnone x (Nat.le_of_not_lt h8),
      hnone y (k := i - 8) (by omega), hnone z (k := i - 16) (by omega)]
  · simp [h8, h16, h24, h32, hnone w (k := i - 24) (by omega)]

theorem or_bytes (w : UInt32) : w.toUInt8.toUInt32 ||| (w >>> 8).toUInt8.toUInt32 <<< 8 |||
    (w >>> 16).toUInt8.toUInt32 <<< 16 ||| (w >>> 24).toUInt8.toUInt32 <<< 24 = w := by
  apply UInt32.toBitVec_inj.mp
  apply BitVec.eq_of_getLsbD_eq
  intro i hi
  simp only [getLsbD_or_bytes, UInt32.toBitVec_toUInt8, UInt32.toBitVec_shiftRight, BitVec.getLsbD_setWidth,
    show UInt32.toBitVec 8 % 32 = 8#32 from rfl, show UInt32.toBitVec 16 % 32 = 16#32 from rfl,
    show UInt32.toBitVec 24 % 32 = 24#32 from rfl, BitVec.ushiftRight_eq', BitVec.getLsbD_ushiftRight,
    BitVec.toNat_ofNat, Nat.reducePow, Nat.reduceMod]
  split
  · rename_i h8
    simp [h8]
  split
  · simp [show i - 8 < 8 by omega, show 8 + (i - 8) = i by omega]
  split
  · simp [show i - 16 < 8 by omega, show 16 + (i - 16) = i by omega]
  · simp [show i - 24 < 8 by omega, show 24 + (i - 24) = i by omega]

theorem or_words (w : UInt64) : w.toUInt32.toUInt64 ||| (w >>> 32).toUInt32.toUInt64 <<< 32 = w := by
  apply UInt64.toBitVec_inj.mp
  apply BitVec.eq_of_getLsbD_eq
  intro i hi
  simp only [UInt64.toBitVec_or, UInt32.toBitVec_toUInt64, UInt64.toBitVec_toUInt32,
    UInt64.toBitVec_shiftLeft, UInt64.toBitVec_shiftRight, BitVec.getLsbD_or, BitVec.getLsbD_setWidth,
    show UInt64.toBitVec 32 % 64 = 32#64 from rfl, BitVec.shiftLeft_eq', BitVec.ushiftRight_eq',
    BitVec.getLsbD_shiftLeft, BitVec.getLsbD_ushiftRight, BitVec.toNat_ofNat, Nat.reducePow, Nat.reduceMod]
  by_cases h : i < 32
  · simp [hi, h]
  · simp [hi, h, show i - 32 < 32 by omega, show 32 + (i - 32) = i by omega, show i - 32 < 64 by omega]

theorem Holds.uint32LE_eq {w : UInt32} (h : Holds b i (ofUInt32LE w)) : b.uint32LE i = w := by
  have h0 : b.at0 i = w.toUInt8 := h.at0_eq (j := 0) (by simp)
  have h1 : b.at0 (i + 1) = (w >>> 8).toUInt8 := h.at0_eq (j := 1) (by simp)
  have h2 : b.at0 (i + 2) = (w >>> 16).toUInt8 := h.at0_eq (j := 2) (by simp)
  have h3 : b.at0 (i + 3) = (w >>> 24).toUInt8 := h.at0_eq (j := 3) (by simp)
  rw [uint32LE, h0, h1, h2, h3, or_bytes]

theorem Holds.uint64LE_eq {w : UInt64} (h : Holds b i (ofUInt64LE w)) : b.uint64LE i = w := by
  rw [ofUInt64LE] at h
  have hlow : b.uint32LE i = w.toUInt32 := h.left.uint32LE_eq
  have hhigh : b.uint32LE (i + 4) = (w >>> 32).toUInt32 := h.right.uint32LE_eq
  rw [uint64LE, hlow, hhigh, or_words]

end Bytes

namespace Record
namespace Decoder

open Bytes (Holds)

/-- The decoder reads `a` off the encoding `x` and stops right after it. -/
def Reads (d : Decoder α) (x : Bytes) (a : α) : Prop :=
  ∀ (b : Bytes) (i : Nat), Holds b i x → d b i = .ok (a, i + x.size)

theorem Reads.run_eq {d : Decoder α} {x : Bytes} {a : α} (h : d.Reads x a) : d.run x = .ok a := by
  rw [run, h x 0 (Bytes.holds_self x)]
  rfl

theorem reads_pure (a : α) : Reads (pure a) ByteArray.empty a := fun _ _ _ => rfl

theorem Reads.bind {d : Decoder α} {x y : Bytes} {a : α} {f : α → Decoder β} {c : β} (hd : d.Reads x a)
    (hf : (f a).Reads y c) : (d >>= f).Reads (x ++ y) c := by
  intro b i h
  have hx := hd b i h.left
  have hy := hf b (i + x.size) h.right
  simp only [Bind.bind, hx, hy, ByteArray.size_append, Nat.add_assoc]

/-- A last step that reads nothing more. -/
theorem Reads.bind_pure {d : Decoder α} {x : Bytes} {a : α} {f : α → Decoder β} {c : β}
    (hd : d.Reads x a) (hf : f a = pure c) : (d >>= f).Reads x c := by
  have h : (f a).Reads ByteArray.empty c := hf ▸ reads_pure c
  have hb := hd.bind h
  rwa [ByteArray.append_empty] at hb

theorem reads_fixed {f : Bytes → Nat → α} {x : Bytes} {a : α} (h : ∀ b i, Holds b i x → f b i = a) :
    Reads (fixed x.size f) x a := by
  intro b i hb
  rw [fixed, if_pos hb.le_size, h b i hb]

theorem reads_byte (c : UInt8) : byte.Reads ⟨#[c]⟩ c :=
  reads_fixed fun _ _ h => h.at0_eq (j := 0) Nat.one_pos

theorem reads_word (w : UInt32) : word.Reads (Record.word w) w :=
  reads_fixed (x := Record.word w) fun _ _ h => h.uint32LE_eq

theorem reads_length {n : Nat} (hn : n < UInt64.size) : length.Reads (Record.length n) n := by
  refine reads_fixed (x := Record.length n) fun _ _ h => ?_
  rw [h.uint64LE_eq, UInt64.toNat_ofNat_of_lt' hn]

theorem reads_flag (v : Bool) : flag.Reads (Record.flag v) v := by
  cases v with
  | false => exact (reads_byte 0).bind_pure rfl
  | true => exact (reads_byte 1).bind_pure rfl

theorem reads_blob {x : Bytes} (hx : x.size < UInt64.size) : blob.Reads (Record.blob x) x :=
  (reads_length hx).bind (reads_fixed fun _ _ h => h.slice_eq)

theorem reads_text {s : String} (hs : s.toUTF8.size < UInt64.size) : text.Reads (Record.text s) s := by
  refine (reads_blob hs).bind_pure ?_
  rw [Utf8.decode_toUTF8]

theorem reads_optional {d : Decoder α} {f : α → Bytes} {o : Option α}
    (h : ∀ a, o = some a → d.Reads (f a) a) : (optional d).Reads (Record.optional f o) o := by
  cases o with
  | none => exact (reads_byte 0).bind_pure rfl
  | some a => exact (reads_byte 1).bind ((h a rfl).bind_pure rfl)

theorem reads_hash (h : Hash) : hash.Reads h.bytes h := by
  intro b i hb
  have hle := hb.le_size
  have hslice := hb.slice_eq
  rw [h.size_eq] at hle hslice
  rw [hash, dif_pos hle, h.size_eq]
  exact congrArg (fun a => Except.ok (a, i + 32)) (Hash.ext hslice)

theorem reads_times {d : Decoder α} {f : α → Bytes} {l : List α} (h : ∀ a ∈ l, d.Reads (f a) a)
    (acc : List α) : (times d l.length acc).Reads (Bytes.concat (l.map f)) (acc.reverse ++ l) := by
  induction l generalizing acc with
  | nil =>
    rw [List.append_nil]
    exact reads_pure acc.reverse
  | cons a l ih =>
    have hrest := ih (fun c hc => h c (List.mem_cons_of_mem a hc)) (a :: acc)
    rw [List.reverse_cons, List.append_assoc, List.singleton_append] at hrest
    rw [List.map_cons, Bytes.concat_cons]
    exact (h a List.mem_cons_self).bind (f := fun a => times d l.length (a :: acc)) hrest

theorem reads_list {d : Decoder α} {f : α → Bytes} {l : List α} (hl : l.length < UInt64.size)
    (h : ∀ a ∈ l, d.Reads (f a) a) :
    (list d).Reads (Record.length l.length ++ Bytes.concat (l.map f)) l :=
  (reads_length hl).bind (reads_times h [])

theorem reads_pair {d : Decoder α} {e : Decoder β} {x y : Bytes} {a : α} {c : β} (hd : d.Reads x a)
    (he : e.Reads y c) : (pair d e).Reads (x ++ y) (a, c) :=
  hd.bind (he.bind_pure rfl)

theorem reads_hashes {l : List Hash} (hl : l.length < UInt64.size) :
    (list hash).Reads (Record.hashes l) l :=
  reads_list hl fun h _ => reads_hash h

end Decoder
end Record
end ChunkRelay
