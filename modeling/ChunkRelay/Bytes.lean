/-! Byte strings: fixed-width words, values, order and hexadecimal text.
A position past the end reads as zero, so every reader here is total. -/
namespace ChunkRelay

abbrev Bytes := ByteArray

namespace Bytes

instance decidableEq : DecidableEq Bytes := fun _ _ => decidable_of_decidable_of_iff ByteArray.ext_iff.symm

def at0 (b : Bytes) (i : Nat) : UInt8 := if h : i < b.size then b[i] else 0

/-- The `n` bytes from position `i`, fewer where `b` ends before. -/
def slice (b : Bytes) (i n : Nat) : Bytes := b.extract i (i + n)

def concat (parts : List Bytes) : Bytes := parts.foldl (· ++ ·) ByteArray.empty

def fill (byte : UInt8) : Nat → Bytes → Bytes
  | 0, acc => acc
  | n + 1, acc => fill byte n (acc.push byte)

def replicate (n : Nat) (byte : UInt8) : Bytes := fill byte n (ByteArray.emptyWithCapacity n)

/-- `n` bytes, byte `i` being `f i`. -/
def tabulate (f : Nat → UInt8) (n : Nat) : Bytes :=
  n.fold (fun i _ acc => acc.push (f i)) (ByteArray.emptyWithCapacity n)

theorem size_fold_push (f : Nat → UInt8) (n : Nat) (acc : Bytes) :
    (n.fold (fun i _ acc => acc.push (f i)) acc).size = acc.size + n := by
  induction n with
  | zero => rfl
  | succ n ih => simp only [Nat.fold_succ, ByteArray.size_push, ih]; omega

@[simp] theorem size_tabulate (f : Nat → UInt8) (n : Nat) : (tabulate f n).size = n := by
  have h := size_fold_push f n (ByteArray.emptyWithCapacity n)
  rw [show (ByteArray.emptyWithCapacity n).size = 0 from rfl, Nat.zero_add] at h
  exact h

theorem size_slice_le (b : Bytes) (i n : Nat) : (b.slice i n).size ≤ n := by
  simp only [slice, ByteArray.size_extract]; omega

/-! Words. -/

def ofUInt32LE (w : UInt32) : Bytes :=
  ⟨#[w.toUInt8, (w >>> 8).toUInt8, (w >>> 16).toUInt8, (w >>> 24).toUInt8]⟩

def ofUInt32BE (w : UInt32) : Bytes :=
  ⟨#[(w >>> 24).toUInt8, (w >>> 16).toUInt8, (w >>> 8).toUInt8, w.toUInt8]⟩

def ofUInt64LE (w : UInt64) : Bytes := ofUInt32LE w.toUInt32 ++ ofUInt32LE (w >>> 32).toUInt32

def ofUInt64BE (w : UInt64) : Bytes := ofUInt32BE (w >>> 32).toUInt32 ++ ofUInt32BE w.toUInt32

@[inline] def uint32LE (b : Bytes) (i : Nat) : UInt32 :=
  (b.at0 i).toUInt32 ||| (b.at0 (i + 1)).toUInt32 <<< 8 |||
    (b.at0 (i + 2)).toUInt32 <<< 16 ||| (b.at0 (i + 3)).toUInt32 <<< 24

def uint64LE (b : Bytes) (i : Nat) : UInt64 :=
  (b.uint32LE i).toUInt64 ||| (b.uint32LE (i + 4)).toUInt64 <<< 32

def uint32BE (b : Bytes) (i : Nat) : UInt32 :=
  (b.at0 i).toUInt32 <<< 24 ||| (b.at0 (i + 1)).toUInt32 <<< 16 |||
    (b.at0 (i + 2)).toUInt32 <<< 8 ||| (b.at0 (i + 3)).toUInt32

def uint64BE (b : Bytes) (i : Nat) : UInt64 :=
  (b.uint32BE i).toUInt64 <<< 32 ||| (b.uint32BE (i + 4)).toUInt64

@[simp] theorem size_ofUInt32LE (w : UInt32) : (ofUInt32LE w).size = 4 := rfl

@[simp] theorem size_ofUInt32BE (w : UInt32) : (ofUInt32BE w).size = 4 := rfl

@[simp] theorem size_ofUInt64LE (w : UInt64) : (ofUInt64LE w).size = 8 := by simp [ofUInt64LE]

@[simp] theorem size_ofUInt64BE (w : UInt64) : (ofUInt64BE w).size = 8 := by simp [ofUInt64BE]

/-! Values: a byte string as a number, least significant byte first. -/

def toNatLE (b : Bytes) : Nat := b.data.foldr (fun x n => x.toNat + 256 * n) 0

/-- The low `n` base-256 digits of `v`, least significant first. -/
def ofNatLE (n v : Nat) : Bytes := tabulate (fun i => UInt8.ofNat (v >>> (8 * i))) n

@[simp] theorem size_ofNatLE (n v : Nat) : (ofNatLE n v).size = n := size_tabulate _ n

/-! Order: byte strings stand as words do in a dictionary. -/

/-- Whether `a` comes before `b` by what they hold from position `i` on. -/
def ltFrom (a b : Bytes) (i : Nat) : Bool :=
  if hb : i < b.size then
    if ha : i < a.size then a[i] < b[i] || (a[i] = b[i] && ltFrom a b (i + 1)) else true
  else false
termination_by b.size - i
decreasing_by omega

theorem drop_toList {b : Bytes} {i : Nat} (h : i < b.size) :
    b.data.toList.drop i = b[i] :: b.data.toList.drop (i + 1) := List.drop_eq_getElem_cons h

theorem drop_toList_of_le {b : Bytes} {i : Nat} (h : b.size ≤ i) : b.data.toList.drop i = [] :=
  List.drop_eq_nil_of_le h

theorem ltFrom_iff (a b : Bytes) (i : Nat) :
    ltFrom a b i = true ↔ a.data.toList.drop i < b.data.toList.drop i := by
  fun_induction ltFrom a b i with
  | case1 i hb ha ih => simp [drop_toList ha, drop_toList hb, List.cons_lt_cons_iff, ih]
  | case2 i hb ha => simp [drop_toList_of_le (Nat.le_of_not_lt ha), drop_toList hb]
  | case3 i hb => simp [drop_toList_of_le (Nat.le_of_not_lt hb)]

/-! Hexadecimal text, lower case. -/

def hexDigit (n : UInt8) : Char :=
  if n < 10 then Char.ofNat (48 + n.toNat) else Char.ofNat (87 + n.toNat)

def toHex (b : Bytes) : String :=
  b.foldl (fun s x => (s.push (hexDigit (x >>> 4))).push (hexDigit (x &&& 15))) ""

end Bytes
end ChunkRelay
