import ChunkRelay.Packet.Header

/-! Sequence packets: one chunk of a message each, under its number. A native packet announces a chunk
whose bytes travel some other way. -/
namespace ChunkRelay

inductive Payload where
  | inline (data : Bytes)
  | native
  deriving DecidableEq

structure Sequence where
  number : UInt32
  payload : Payload
  deriving DecidableEq

namespace Sequence

def ofChunk (number : UInt32) (data : Bytes) : Sequence := ⟨number, .inline data⟩

def native (number : UInt32) : Sequence := ⟨number, .native⟩

def isNative (p : Sequence) : Bool :=
  match p.payload with
  | .inline _ => false
  | .native => true

/-- The chunk; a native packet holds no bytes of it. -/
def bytes (p : Sequence) : Bytes :=
  match p.payload with
  | .inline b => b
  | .native => ByteArray.empty

def hash (p : Sequence) : Hash := Hash.chunk p.number p.bytes

/-- Whether the chunk is the one that the header lists under its number. -/
def verify (p : Sequence) (h : Header) : Bool :=
  match h.hash? p.number with
  | some expected => decide (p.hash = expected)
  | none => false

def encode (p : Sequence) : Bytes := Record.word p.number ++ Record.flag p.isNative ++ Record.blob p.bytes

open Record in
def decoder : Decoder Sequence := do
  let number ← Decoder.word
  let isNative ← Decoder.flag
  let data ← Decoder.blob
  return ⟨number, if isNative then .native else .inline data⟩

end Sequence
end ChunkRelay
