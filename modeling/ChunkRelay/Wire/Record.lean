import ChunkRelay.Hash
import ChunkRelay.Text.Utf8

/-! Records: fields one after another, words least significant byte first, a length of eight bytes
before whatever may vary in length. A decoder reads from a position and returns the position after it,
so the bytes that follow a record are no part of it. -/
namespace ChunkRelay

inductive RecordError where
  | truncated
  | flag (byte : UInt8)
  | optionTag (byte : UInt8)
  | variant (found : UInt32) (count : Nat)
  | text (fault : Utf8.Fault)
  deriving DecidableEq, Repr

def RecordError.message : RecordError → String
  | .truncated => "io error"
  | .flag b => s!"invalid u8 while decoding bool, expected 0 or 1, found {b}"
  | .optionTag b => s!"tag for enum is not valid, found {b}"
  | .variant n count =>
    "invalid value: integer \x60" ++ s!"{n}" ++ "\x60, expected variant index 0 <= i < " ++ s!"{count}"
  | .text f => s!"string is not valid utf8: {f.message}"

namespace Record

/-! Writing. -/

def flag (b : Bool) : Bytes := ⟨#[if b then 1 else 0]⟩

def word (w : UInt32) : Bytes := Bytes.ofUInt32LE w

def length (n : Nat) : Bytes := Bytes.ofUInt64LE (UInt64.ofNat n)

def blob (b : Bytes) : Bytes := length b.size ++ b

def text (s : String) : Bytes := blob s.toUTF8

def optional (f : α → Bytes) : Option α → Bytes
  | none => flag false
  | some a => flag true ++ f a

def hashes (l : List Hash) : Bytes := length l.length ++ Hash.concat l

/-! Reading. -/

def Decoder (α : Type) : Type := Bytes → Nat → Except RecordError (α × Nat)

instance : Monad Decoder where
  pure a := fun _ i => .ok (a, i)
  bind d f := fun b i =>
    match d b i with
    | .error e => .error e
    | .ok (a, j) => f a b j

namespace Decoder

def fail (e : RecordError) : Decoder α := fun _ _ => .error e

def run (d : Decoder α) (b : Bytes) : Except RecordError α := (d b 0).map (·.1)

/-- Moves on by `n` bytes and reads a value there with `f`. -/
def fixed (n : Nat) (f : Bytes → Nat → α) : Decoder α := fun b i =>
  if i + n ≤ b.size then .ok (f b i, i + n) else .error .truncated

def byte : Decoder UInt8 := fixed 1 Bytes.at0

def word : Decoder UInt32 := fixed 4 Bytes.uint32LE

def length : Decoder Nat := fixed 8 fun b i => (b.uint64LE i).toNat

def flag : Decoder Bool := do
  match ← byte with
  | 0 => return false
  | 1 => return true
  | x => fail (.flag x)

def blob : Decoder Bytes := do
  let n ← length
  fixed n fun b i => b.slice i n

def text : Decoder String := do
  match Utf8.decode (← blob) with
  | .ok s => return s
  | .error f => fail (.text f)

def optional (d : Decoder α) : Decoder (Option α) := do
  match ← byte with
  | 0 => return none
  | 1 => return some (← d)
  | x => fail (.optionTag x)

theorem size_slice {b : Bytes} {i n : Nat} (h : i + n ≤ b.size) : (b.slice i n).size = n := by
  simp only [Bytes.slice, ByteArray.size_extract]; omega

def hash : Decoder Hash := fun b i =>
  if h : i + 32 ≤ b.size then .ok (⟨b.slice i 32, size_slice h⟩, i + 32) else .error .truncated

/-- `n` values one after another, put on `acc` in reverse. -/
def times (d : Decoder α) : Nat → List α → Decoder (List α)
  | 0, acc => pure acc.reverse
  | n + 1, acc => fun b i =>
    match d b i with
    | .error e => .error e
    | .ok (a, j) => times d n (a :: acc) b j

def list (d : Decoder α) : Decoder (List α) := do
  let n ← length
  times d n []

def pair (d : Decoder α) (e : Decoder β) : Decoder (α × β) := do
  let a ← d
  let b ← e
  return (a, b)

end Decoder
end Record
end ChunkRelay
