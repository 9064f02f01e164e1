import ChunkRelay.Bytes
import ChunkRelay.Stream.Fault

/-! Byte sinks. A sink may have room for a limited number of bytes; a write that does not fit is
accepted in part and fails. -/
namespace ChunkRelay

/-- What bytes can be pushed to, a whole write at a time. -/
class ByteSink (σ : Type) where
  push : Bytes → σ → Except IoError Unit × σ
  flush : σ → Except IoError Unit × σ

structure Sink where
  accepted : Bytes
  limit : Option Nat
  overflow : IoError
  flushError : Option IoError

namespace Sink

def empty : Sink := ⟨ByteArray.empty, none, .other "", none⟩

def room (s : Sink) (n : Nat) : Nat :=
  match s.limit with
  | some l => min n (l - s.accepted.size)
  | none => n

def push (b : Bytes) (s : Sink) : Except IoError Unit × Sink :=
  let k := s.room b.size
  if k = b.size then (.ok (), { s with accepted := s.accepted ++ b })
  else (.error s.overflow, { s with accepted := s.accepted ++ b.slice 0 k })

def flush (s : Sink) : Except IoError Unit × Sink :=
  match s.flushError with
  | some e => (.error e, s)
  | none => (.ok (), s)

instance : ByteSink Sink := ⟨push, flush⟩

end Sink
end ChunkRelay
