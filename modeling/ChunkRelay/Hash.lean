import ChunkRelay.Digest.Blake3

/-! Content hashes. A chunk's hash covers its position as well as its bytes, and a message's key covers
the hashes of all its chunks in order. -/
namespace ChunkRelay

structure Hash where
  bytes : Bytes
  size_eq : bytes.size = 32

namespace Hash

@[ext] theorem ext {a b : Hash} (h : a.bytes = b.bytes) : a = b := by
  cases a; cases b; cases h; rfl

instance : DecidableEq Hash := fun a b =>
  if h : a.bytes = b.bytes then isTrue (ext h) else isFalse fun e => h (e ▸ rfl)

instance : Inhabited Hash := ⟨⟨⟨Array.replicate 32 0⟩, rfl⟩⟩

/-- Hashes are ordered as the byte strings they are. -/
instance : LT Hash := ⟨fun a b => a.bytes.data.toList < b.bytes.data.toList⟩

instance : DecidableLT Hash := fun a b => decidable_of_iff _ (Bytes.ltFrom_iff a.bytes b.bytes 0)

theorem lt_trans {a b c : Hash} (hab : a < b) (hbc : b < c) : a < c :=
  List.lt_trans (α := UInt8) hab hbc

def ofBytes? (b : Bytes) : Option Hash := if h : b.size = 32 then some ⟨b, h⟩ else none

def toHex (h : Hash) : String := h.bytes.toHex

def of (b : Bytes) : Hash := ⟨Blake3.hash b, Blake3.size_hash b⟩

def chunk (number : UInt32) (data : Bytes) : Hash := of (Bytes.ofUInt32BE number ++ data)

def concat (hashes : List Hash) : Bytes := Bytes.concat (hashes.map (·.bytes))

def contentKey (hashes : List Hash) : Hash := of (concat hashes)

end Hash
end ChunkRelay
