import ChunkRelay.Wire.Frame
import ChunkRelay.Keys
import ChunkRelay.Text.Quoted

/-! The rules that packets and their builders keep, and the ways in which a packet can fail. -/
namespace ChunkRelay

/-- The largest chunk whose packet fits in one frame: its number, a flag and a length go with it. -/
def maxBlockSize : UInt32 := 16777203

/-- The largest block size leaves room for the rest of a chunk's packet and for nothing more. -/
theorem maxBlockSize_add : maxBlockSize.toNat + (4 + 1 + 8) = Frame.maxLength := rfl

inductive PolicyError where
  | missingBlockSize
  | blockSizeTooLarge (size : UInt32)
  | missingApplication
  | signatureWithoutSender
  | emptyFingerprint
  | sentinelFingerprint
  | invalidFingerprint
  | optOutWithHashes
  | zeroChunkSize
  | tooManyChunks
  | reservedKey (key : String)
  | emptyName
  deriving DecidableEq, Repr

def PolicyError.message : PolicyError → String
  | .missingBlockSize => "block size must be set and non-zero unless end of stream"
  | .blockSizeTooLarge n => s!"block size {n} exceeds the largest framable chunk ({maxBlockSize})"
  | .missingApplication => "application must be set unless end of stream"
  | .signatureWithoutSender => "signature supplied without a sender fingerprint"
  | .emptyFingerprint => "fingerprint must not be empty"
  | .sentinelFingerprint => "fingerprint collides with the absent-fingerprint sentinel"
  | .invalidFingerprint => "fingerprint is not valid utf-8"
  | .optOutWithHashes => "declare-hashes cannot both opt out and carry hashes"
  | .zeroChunkSize => "chunk size must be non-zero"
  | .tooManyChunks => "source needs more chunks than a sequence number can count"
  | .reservedKey k => s!"reserved key {Quoted.quote k} cannot be modified directly"
  | .emptyName => "identity name must not be empty"

/-- What kind of failure it is, in one word. -/
def PolicyError.name : PolicyError → String
  | .missingBlockSize => "MissingBlockSize"
  | .blockSizeTooLarge _ => "BlockSizeTooLarge"
  | .missingApplication => "MissingApplication"
  | .signatureWithoutSender => "SignatureWithoutSender"
  | .emptyFingerprint => "EmptyFingerprint"
  | .sentinelFingerprint => "SentinelFingerprint"
  | .invalidFingerprint => "InvalidFingerprint"
  | .optOutWithHashes => "OptOutWithHashes"
  | .zeroChunkSize => "ZeroChunkSize"
  | .tooManyChunks => "TooManyChunks"
  | .reservedKey _ => "ReservedKey"
  | .emptyName => "EmptyName"

inductive PacketError where
  | framing (cause : FramingError)
  | policy (cause : PolicyError)
  | key (cause : KeyError)
  deriving DecidableEq, Repr

def PacketError.message : PacketError → String
  | .framing e => e.message
  | .policy e => e.message
  | .key e => e.message

/-- The rules that were broken, then what kind of failure it is. -/
def PacketError.name : PacketError → String
  | .framing e => "Framing." ++ e.name
  | .policy e => "Policy." ++ e.name
  | .key e => "Key." ++ e.name

/-! Fingerprints of the peers that a message names. On the wire an absent one is a single zero byte, so
no fingerprint may be that byte, nor empty. -/
namespace Fingerprint

def sentinel : Bytes := ⟨#[0]⟩

def toWire : Option String → Bytes
  | some fp => fp.toUTF8
  | none => sentinel

def ofWire (b : Bytes) : Except PolicyError (Option String) :=
  if b = sentinel then .ok none
  else if b.size = 0 then .error .emptyFingerprint
  else match String.fromUTF8? b with
    | some fp => .ok (some fp)
    | none => .error .invalidFingerprint

def check : Option String → Except PolicyError Unit
  | none => .ok ()
  | some fp =>
    if fp = "" then .error .emptyFingerprint
    else if fp.toUTF8 = sentinel then .error .sentinelFingerprint
    else .ok ()

end Fingerprint
end ChunkRelay
