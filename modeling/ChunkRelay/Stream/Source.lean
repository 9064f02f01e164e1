import ChunkRelay.Bytes
import ChunkRelay.Stream.Fault

/-! Byte sources. A read may hand out fewer bytes than were asked for, and none only at the end; a
source may also break at a position, after which every read fails. -/
namespace ChunkRelay

/-- What bytes can be taken from, a given number at a time and fewer only at the end. -/
class ByteSource (σ : Type) where
  take : Nat → σ → Except IoError Bytes × σ

structure Source where
  bytes : Bytes
  /-- The most bytes that a read at a position hands out. -/
  grant : Nat → Nat
  /-- Where the source breaks, and how. -/
  breakAt : Option (Nat × IoError)
  pos : Nat

namespace Source

def ofBytes (b : Bytes) : Source := ⟨b, fun _ => b.size, none, 0⟩

/-- A source that fails from the start. -/
def broken (e : IoError) : Source := ⟨ByteArray.empty, fun _ => 0, some (0, e), 0⟩

/-- The most bytes that a read at the present position can hand out. -/
def available (s : Source) : Nat :=
  let rest := min (s.grant s.pos) (s.bytes.size - s.pos)
  match s.breakAt with
  | some (at_, _) => min rest (at_ - s.pos)
  | none => rest

/-- One read of at most `n` bytes. -/
def read (s : Source) (n : Nat) : Except IoError Bytes × Source :=
  match s.breakAt with
  | some (at_, e) =>
    if at_ ≤ s.pos then (.error e, s)
    else let k := min n s.available; (.ok (s.bytes.slice s.pos k), { s with pos := s.pos + k })
  | none => let k := min n s.available; (.ok (s.bytes.slice s.pos k), { s with pos := s.pos + k })

/-- Reads on until `acc` has grown by `n` bytes or the source ends. Every read but the last hands out
a byte, so `n + 1` reads are enough. -/
def fill (s : Source) (n : Nat) (acc : Bytes) : Nat → Except IoError Bytes × Source
  | 0 => (.ok acc, s)
  | fuel + 1 =>
    if n = 0 then (.ok acc, s)
    else match s.read n with
      | (.error e, s) => (.error e, s)
      | (.ok b, s) => if b.size = 0 then (.ok acc, s) else fill s (n - b.size) (acc ++ b) fuel

/-- Up to `n` bytes, fewer only at the end of the source. -/
def take (s : Source) (n : Nat) : Except IoError Bytes × Source := s.fill n ByteArray.empty (n + 1)

instance : ByteSource Source := ⟨fun n s => s.take n⟩

end Source
end ChunkRelay
