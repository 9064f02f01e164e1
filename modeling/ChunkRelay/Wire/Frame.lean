import ChunkRelay.Wire.Record
import ChunkRelay.Digest.Crc32
import ChunkRelay.Stream.Source
import ChunkRelay.Stream.Sink

/-! Frames: a payload between its length and its checksum. A length above the maximum is taken for
damage and never read. -/
namespace ChunkRelay

inductive FramingError where
  | truncated
  | checksumMismatch (expected actual : UInt32)
  | tooLarge (length : Nat)
  | unknownPacketType (byte : UInt8)
  | malformed (cause : RecordError)
  | io (cause : IoError)
  deriving DecidableEq, Repr

namespace Frame

def maxLength : Nat := 16777216

def overhead : Nat := 8

def hexPadded (n width : Nat) : String :=
  let ds := Nat.toDigits 16 n
  String.ofList (List.replicate (width - ds.length) '0' ++ ds)

end Frame

def FramingError.message : FramingError → String
  | .truncated => "stream ended before the frame was complete"
  | .checksumMismatch e a =>
    s!"frame checksum mismatch: expected 0x{Frame.hexPadded e.toNat 8}, computed 0x{Frame.hexPadded a.toNat 8}"
  | .tooLarge n => s!"frame length {n} exceeds maximum {Frame.maxLength}"
  | .unknownPacketType b => s!"unknown packet type byte: 0x{Frame.hexPadded b.toNat 2}"
  | .malformed e => s!"frame payload does not decode: {e.message}"
  | .io e => s!"transport i/o error: {e.message}"

/-- What kind of failure it is, in one word. -/
def FramingError.name : FramingError → String
  | .truncated => "Truncated"
  | .checksumMismatch .. => "ChecksumMismatch"
  | .tooLarge _ => "TooLarge"
  | .unknownPacketType _ => "UnknownPacketType"
  | .malformed _ => "Malformed"
  | .io _ => "Io"

namespace Frame

def encode (payload : Bytes) : Except FramingError Bytes :=
  if payload.size > maxLength then .error (.tooLarge payload.size)
  else .ok (Bytes.ofUInt32LE (UInt32.ofNat payload.size) ++ payload ++
    Bytes.ofUInt32LE (Crc32.checksum payload))

/-- Passes `payload` on when `trailer` is its checksum. -/
def checked (payload : Bytes) (trailer : UInt32) : Except FramingError Bytes :=
  let actual := Crc32.checksum payload
  if trailer = actual then .ok payload else .error (.checksumMismatch trailer actual)

/-- The payload of the frame at the front of `b`, and the bytes that the frame takes. -/
def decode (b : Bytes) : Except FramingError (Bytes × Nat) :=
  if b.size < 4 then .error .truncated
  else
    let n := (b.uint32LE 0).toNat
    if n > maxLength then .error (.tooLarge n)
    else if b.size < overhead + n then .error .truncated
    else (checked (b.slice 4 n) (b.uint32LE (4 + n))).map (·, overhead + n)

/-- Exactly `n` bytes of a source. -/
def readExact (s : Source) (n : Nat) : Except FramingError Bytes × Source :=
  match s.take n with
  | (.error e, s) => (.error (.io e), s)
  | (.ok b, s) => if b.size < n then (.error .truncated, s) else (.ok b, s)

def read (s : Source) : Except FramingError Bytes × Source :=
  match readExact s 4 with
  | (.error e, s) => (.error e, s)
  | (.ok head, s) =>
    let n := (head.uint32LE 0).toNat
    if n > maxLength then (.error (.tooLarge n), s)
    else match readExact s n with
      | (.error e, s) => (.error e, s)
      | (.ok payload, s) =>
        match readExact s 4 with
        | (.error e, s) => (.error e, s)
        | (.ok trailer, s) => (checked payload (trailer.uint32LE 0), s)

variable {σ : Type} [ByteSink σ]

def push (b : Bytes) (s : σ) : Except FramingError Unit × σ :=
  match ByteSink.push b s with
  | (.error e, s) => (.error (.io e), s)
  | (.ok (), s) => (.ok (), s)

def write (payload : Bytes) (s : σ) : Except FramingError Unit × σ :=
  match encode payload with
  | .error e => (.error e, s)
  | .ok b => push b s

end Frame
end ChunkRelay
