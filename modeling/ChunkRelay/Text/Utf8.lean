import ChunkRelay.Bytes

/-! Reading bytes as UTF-8 text. A byte string that is no text has a first fault: the position of the
character that fails and how many of its bytes can still begin a character. -/
namespace ChunkRelay
namespace Utf8

/-- `length` is absent where the bytes end inside a character. -/
structure Fault where
  index : Nat
  length : Option Nat
  deriving DecidableEq, Repr

def Fault.message (f : Fault) : String :=
  match f.length with
  | some n => s!"invalid utf-8 sequence of {n} bytes from index {f.index}"
  | none => s!"incomplete utf-8 byte sequence from index {f.index}"

/-- Bytes of a character, by its first byte; zero where no character starts so. -/
def width (first : UInt8) : Nat :=
  if first < 0x80 then 1 else if first < 0xc2 then 0 else if first < 0xe0 then 2
  else if first < 0xf0 then 3 else if first < 0xf5 then 4 else 0

/-- The bytes that may come second: narrower after the first bytes that could spell a character in
too many bytes, a surrogate, or a number above the last character. -/
def secondRange (first : UInt8) : UInt8 × UInt8 :=
  if first = 0xe0 then (0xa0, 0xbf) else if first = 0xed then (0x80, 0x9f)
  else if first = 0xf0 then (0x90, 0xbf) else if first = 0xf4 then (0x80, 0x8f) else (0x80, 0xbf)

/-- Looks at byte `k` of the character at `i`, which has `w` bytes. -/
def faultIn (b : Bytes) (i w k : Nat) : Option Fault :=
  if k < w then
    if i + k < b.size then
      let range := if k = 1 then secondRange (b.at0 i) else (0x80, 0xbf)
      let x := b.at0 (i + k)
      if range.1 ≤ x ∧ x ≤ range.2 then faultIn b i w (k + 1) else some ⟨i, some k⟩
    else some ⟨i, none⟩
  else none
  termination_by w - k

/-- The first fault at or after `i`, looking at no more than `fuel` characters. -/
def faultFrom (b : Bytes) : Nat → Nat → Option Fault
  | 0, _ => none
  | fuel + 1, i =>
    if i < b.size then
      let w := width (b.at0 i)
      if w = 0 then some ⟨i, some 1⟩
      else match faultIn b i w 1 with
        | some f => some f
        | none => faultFrom b fuel (i + w)
    else none

def fault (b : Bytes) : Fault := (faultFrom b b.size 0).getD ⟨b.size, none⟩

def decode (b : Bytes) : Except Fault String :=
  match String.fromUTF8? b with
  | some s => .ok s
  | none => .error (fault b)

theorem fromUTF8?_toUTF8 (s : String) : String.fromUTF8? s.toUTF8 = some s := by
  simp [String.fromUTF8?, String.toUTF8, String.fromUTF8, s.isValidUTF8]

theorem decode_toUTF8 (s : String) : decode s.toUTF8 = .ok s := by
  unfold decode; rw [fromUTF8?_toUTF8]

end Utf8
end ChunkRelay
