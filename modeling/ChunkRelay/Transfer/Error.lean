import ChunkRelay.Packet
import ChunkRelay.Storage.Error

/-! Why a transfer did not complete. -/
namespace ChunkRelay

inductive TransferError where
  | integrity (number : UInt32)
  | outOfOrder (expected actual : UInt32)
  | truncated (received expected : Nat)
  | overrun (expected : Nat)
  | abandoned
  | unexpectedPacket (expected actual : PacketType)
  | streamBroken
  | policy (cause : PolicyError)
  | packet (cause : PacketError)
  | datastore (cause : String)
  | storage (cause : StorageError)
  | io (cause : IoError)
  deriving DecidableEq, Repr

namespace TransferError

def message : TransferError → String
  | .integrity n => s!"chunk {n} failed hash verification"
  | .outOfOrder e a => s!"expected chunk {e}, received chunk {a}"
  | .truncated r e => s!"stream ended after {r} of {e} chunks"
  | .overrun e => s!"header lists {e} chunks but more arrived"
  | .abandoned => "session dropped before its chunks were consumed"
  | .unexpectedPacket e a => s!"expected a {e.name} packet, got {a.name}"
  | .streamBroken => "transport stream is unusable after an earlier read failure"
  | .policy e => e.message
  | .packet e => e.message
  | .datastore cause => s!"datastore failure: {cause}"
  | .storage e => s!"file storage failure: {e.message}"
  | .io e => s!"i/o failure: {e.message}"

/-- What kind of failure it is, in one word, or in the words of what it wraps. -/
def name : TransferError → String
  | .integrity _ => "Integrity"
  | .outOfOrder .. => "OutOfOrder"
  | .truncated .. => "Truncated"
  | .overrun _ => "Overrun"
  | .abandoned => "Abandoned"
  | .unexpectedPacket .. => "UnexpectedPacket"
  | .streamBroken => "StreamBroken"
  | .policy e => "Policy." ++ e.name
  | .packet e => "Packet." ++ e.name
  | .datastore _ => "Datastore"
  | .storage _ => "Storage"
  | .io _ => "Io"

/-- Whether the data that arrived is to blame, and not this side's storage or rules. -/
def isIntegrity : TransferError → Bool
  | .integrity _ | .outOfOrder .. | .truncated .. | .overrun _ | .unexpectedPacket .. => true
  | .packet (.framing _) => true
  | _ => false

/-- The message, followed by the cause that it was raised from where it names one. -/
def causes (e : TransferError) : List String :=
  match e with
  | .io cause => [e.message, cause.message]
  | .packet (.framing (.io cause)) => [e.message, cause.message]
  | _ => [e.message]

end TransferError
end ChunkRelay
