import ChunkRelay.Packet.Sequence
import ChunkRelay.Packet.Identity
import ChunkRelay.Packet.Declare

/-! The four kinds of packet, each framed by itself. Where several kinds share a stream, a type byte
stands before every frame. -/
namespace ChunkRelay

inductive PacketType where
  | blockHeader | blockSequence | identity | declareHashes
  deriving DecidableEq, Repr

namespace PacketType

def byte : PacketType → UInt8
  | .blockHeader => 0
  | .blockSequence => 1
  | .identity => 2
  | .declareHashes => 3

def ofByte : UInt8 → Except FramingError PacketType
  | 0 => .ok .blockHeader
  | 1 => .ok .blockSequence
  | 2 => .ok .identity
  | 3 => .ok .declareHashes
  | b => .error (.unknownPacketType b)

def name : PacketType → String
  | .blockHeader => "BlockHeader"
  | .blockSequence => "BlockSequence"
  | .identity => "Identity"
  | .declareHashes => "DeclareHashes"

end PacketType

inductive Packet where
  | header (header : Header)
  | sequence (sequence : Sequence)
  | identity (identity : IdentityPacket)
  | declare (declaration : Declaration)

namespace Packet

def type : Packet → PacketType
  | .header _ => .blockHeader
  | .sequence _ => .blockSequence
  | .identity _ => .identity
  | .declare _ => .declareHashes

def payload : Packet → Bytes
  | .header h => h.encode
  | .sequence s => s.encode
  | .identity i => i.encode
  | .declare d => d.encode

def ofPayload (type : PacketType) (b : Bytes) : Except PacketError Packet :=
  let decoded {α : Type} (d : Record.Decoder α) : Except PacketError α :=
    (d.run b).mapError fun e => .framing (.malformed e)
  match type with
  | .blockHeader => do
    let raw ← decoded Header.Raw.decoder
    return .header (← (Header.ofRaw raw).mapError .policy)
  | .blockSequence => return .sequence (← decoded Sequence.decoder)
  | .identity => do
    let raw ← decoded IdentityPacket.Raw.decoder
    return .identity (← IdentityPacket.ofRaw raw)
  | .declareHashes => return .declare (← decoded Declaration.decoder)

/-- The packet in its frame. -/
def encode (p : Packet) : Except PacketError Bytes := (Frame.encode p.payload).mapError .framing

/-- The packet at the front of `b`, and the bytes that its frame takes. -/
def parse (type : PacketType) (b : Bytes) : Except PacketError (Packet × Nat) := do
  let (payload, n) ← (Frame.decode b).mapError .framing
  return (← ofPayload type payload, n)

def read (type : PacketType) (s : Source) : Except PacketError Packet × Source :=
  match Frame.read s with
  | (.error e, s) => (.error (.framing e), s)
  | (.ok payload, s) => (ofPayload type payload, s)

/-- Reads a type byte and the frame after it. -/
def readTyped (s : Source) : Except PacketError Packet × Source :=
  match Frame.readExact s 1 with
  | (.error e, s) => (.error (.framing e), s)
  | (.ok b, s) =>
    match PacketType.ofByte (b.at0 0) with
    | .error e => (.error (.framing e), s)
    | .ok type => read type s

variable {σ : Type} [ByteSink σ]

def push (b : Bytes) (s : σ) : Except PacketError Unit × σ :=
  match Frame.push b s with
  | (.error e, s) => (.error (.framing e), s)
  | (.ok (), s) => (.ok (), s)

/-- The type byte goes out before the packet is encoded. -/
def writeTyped (p : Packet) (s : σ) : Except PacketError Unit × σ :=
  match push ⟨#[p.type.byte]⟩ s with
  | (.error e, s) => (.error e, s)
  | (.ok (), s) =>
    match p.encode with
    | .error e => (.error e, s)
    | .ok b => push b s

end Packet
end ChunkRelay
