import ChunkRelay.Transfer.Session

/-! Batches: sessions one after another on one stream, each a header and its chunks, closed by an
end-of-stream header. -/
namespace ChunkRelay
namespace Session

variable {σ : Type} [PacketFeed σ] [ByteSink σ]

def writePacket (p : Packet) (s : Session σ) : Except TransferError Unit × Session σ :=
  match p.writeTyped s with
  | (.error e, s) => (.error (.packet e), s)
  | (.ok (), s) => (.ok (), s)

/-- Writes a packet that was pulled; where that fails, the session fails with it. -/
def writeChunk (p : Sequence) (s : Session σ) : Except TransferError Unit × Session σ :=
  match writePacket (.sequence p) s with
  | (.error e, s) => (.error e, s.fail e)
  | (.ok (), s) => (.ok (), s)

def flush (s : Session σ) : Except TransferError Unit × Session σ :=
  match ByteSink.flush s with
  | (.error e, s) => (.error (.io e), s)
  | (.ok (), s) => (.ok (), s)

/-- Closes the batch if this session is its last one. -/
def writeEnd (s : Session σ) : Except TransferError Unit × Session σ :=
  if s.last ∧ ¬ s.header.endOfStream then writePacket (.header Header.terminator) s else (.ok (), s)

/-- Writes the session to where its feed's bytes go, pulling one packet at a time, and counts the chunks.
The session is used up, whatever the result. -/
def write (s : Session σ) : Except TransferError Nat × Session σ :=
  match writePacket (.header s.header) s with
  | (.error e, s) => (.error e, s.abandon)
  | (.ok (), s) =>
    match PacketFeed.forEach writeChunk s.fuel 0 s with
    | (.error e, s) => (.error e, s)
    | (.ok n, s) =>
      match s.writeEnd with
      | (.error e, s) => (.error e, s)
      | (.ok (), s) =>
        match s.flush with
        | (.error e, s) => (.error e, s)
        | (.ok (), s) => (.ok n, s)

/-- Writes the session to a sink of its own. -/
def writeTo {φ ω : Type} [PacketFeed φ] [ByteSink ω] (s : Session φ) (sink : ω) :
    Except TransferError Nat × Session φ × ω :=
  let (result, s) := (s.withFeed (s.packets.inner, sink)).write
  (result, s.withFeed s.packets.inner.1, s.packets.inner.2)

end Session

/-- The receiving end of a batch. Reading stops for good at the first failure, since what follows cannot
be told apart any more. -/
structure Inbox where
  source : Source
  /-- Chunks of the present session that are not read yet. -/
  pending : Nat
  broken : Bool
  finished : Bool

namespace Inbox

def new (source : Source) : Inbox := ⟨source, 0, false, false⟩

/-- Reads the next packet of the present session. -/
def readChunk (i : Inbox) : Delivery × Inbox :=
  if i.broken then (.error .streamBroken, i)
  else match Packet.readTyped i.source with
    | (.ok (.sequence p), s) => (.ok p, { i with source := s, pending := i.pending - 1 })
    | (.ok other, s) => (.error (.unexpectedPacket .blockSequence other.type), { i with source := s, broken := true })
    | (.error e, s) => (.error (.packet e), { i with source := s, broken := true })

instance : PacketFeed Inbox where
  next i :=
    if i.pending = 0 then (none, i)
    else let (d, i) := i.readChunk; (some d, i)

/-- Reads and drops what the session before left, `fuel` chunks at most. -/
def skip (i : Inbox) : Nat → Except TransferError Unit × Inbox
  | 0 => (.ok (), i)
  | fuel + 1 =>
    if i.pending = 0 then (.ok (), i)
    else match i.readChunk with
      | (.error e, i) => (.error e, i)
      | (.ok _, i) => skip i fuel

/-- The header that is due, or nothing where the batch ends. -/
def readHeader (i : Inbox) : Except TransferError (Option Header) × Inbox :=
  match Packet.readTyped i.source with
  | (.ok (.header h), s) =>
    if h.endOfStream then (.ok none, { i with source := s, finished := true })
    else (.ok (some h), { i with source := s, pending := h.chunkCount })
  | (.ok other, s) => (.error (.unexpectedPacket .blockHeader other.type), { i with source := s, broken := true })
  | (.error e, s) => (.error (.packet e), { i with source := s, broken := true })

/-- The header of the next session. The session that it begins is read through the inbox. -/
def nextHeader (i : Inbox) : Except TransferError (Option Header) × Inbox :=
  if i.finished then (.ok none, i)
  else match i.skip i.pending with
    | (.error e, i) => (.error e, i)
    | (.ok (), i) => if i.broken then (.error .streamBroken, i) else i.readHeader

end Inbox
end ChunkRelay
