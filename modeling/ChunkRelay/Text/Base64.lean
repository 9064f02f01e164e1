import ChunkRelay.Bytes

/-! Base64 in the standard alphabet with padding. Reading accepts exactly what writing produces: the
padding must be there, the bits that no byte takes must be zero, and nothing may be skipped. -/
namespace ChunkRelay
namespace Base64

def digit (n : Nat) : Char :=
  if n < 26 then Char.ofNat (65 + n) else if n < 52 then Char.ofNat (71 + n)
  else if n < 62 then Char.ofNat (n - 4) else if n = 62 then '+' else '/'

def value (c : Char) : Option Nat :=
  if 'A' ≤ c ∧ c ≤ 'Z' then some (c.toNat - 65)
  else if 'a' ≤ c ∧ c ≤ 'z' then some (c.toNat - 71)
  else if '0' ≤ c ∧ c ≤ '9' then some (c.toNat + 4)
  else if c = '+' then some 62 else if c = '/' then some 63 else none

/-- Three bytes become four digits; one or two left over are padded to four signs. -/
def encodeChars : List UInt8 → List Char
  | [] => []
  | [a] => [digit (a.toNat / 4), digit (a.toNat % 4 * 16), '=', '=']
  | [a, b] => [digit (a.toNat / 4), digit (a.toNat % 4 * 16 + b.toNat / 16),
      digit (b.toNat % 16 * 4), '=']
  | a :: b :: c :: r => digit (a.toNat / 4) :: digit (a.toNat % 4 * 16 + b.toNat / 16) ::
      digit (b.toNat % 16 * 4 + c.toNat / 64) :: digit (c.toNat % 64) :: encodeChars r

def encode (b : Bytes) : String := String.ofList (encodeChars b.data.toList)

/-- The bytes of a last group, which may be padded. -/
def decodeLast (a b c d : Char) : Option (List UInt8) := do
  let x ← value a
  let y ← value b
  if c = '=' ∧ d = '=' then
    if y % 16 = 0 then some [UInt8.ofNat (x * 4 + y / 16)] else none
  else
    let z ← value c
    if d = '=' then
      if z % 4 = 0 then some [UInt8.ofNat (x * 4 + y / 16), UInt8.ofNat (y % 16 * 16 + z / 4)] else none
    else
      let w ← value d
      some [UInt8.ofNat (x * 4 + y / 16), UInt8.ofNat (y % 16 * 16 + z / 4), UInt8.ofNat (z % 4 * 64 + w)]

/-- `acc` holds the bytes so far, the last one first. -/
def decodeChars (acc : List UInt8) : List Char → Option (List UInt8)
  | [] => some acc.reverse
  | [a, b, c, d] => (decodeLast a b c d).map (acc.reverse ++ ·)
  | a :: b :: c :: d :: r =>
    match value a, value b, value c, value d with
    | some x, some y, some z, some w =>
      decodeChars (UInt8.ofNat (z % 4 * 64 + w) :: UInt8.ofNat (y % 16 * 16 + z / 4) ::
        UInt8.ofNat (x * 4 + y / 16) :: acc) r
    | _, _, _, _ => none
  | _ => none

def decode? (s : String) : Option Bytes := (decodeChars [] s.toList).map List.toByteArray

end Base64
end ChunkRelay
