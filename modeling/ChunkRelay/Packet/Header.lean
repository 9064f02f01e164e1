import ChunkRelay.Packet.Policy

/-! Headers: who a message is for, how it was cut into chunks, and the hash of every chunk that follows.
An end-of-stream header carries no message and closes a batch. -/
namespace ChunkRelay

def defaultMime : String := "application/octet-stream"

/-- Keeps what is safe in a file name: ASCII letters and digits, hyphens, underscores, and dots that
are neither first nor last. -/
def cleanExtension (ext : String) : String :=
  let kept := ext.toList.filter fun c => c.isAlphanum || c = '-' || c = '_' || c = '.'
  String.ofList (((kept.dropWhile (· = '.')).reverse.dropWhile (· = '.')).reverse)

structure Header where
  recipient : Option String
  sender : Option String
  application : String
  signature : Option Bytes
  sessionId : Int32
  blockSize : UInt32
  mime : String
  extension : String
  userFilename : Option String
  toDisk : Bool
  endOfStream : Bool
  hashes : List Hash
  deriving DecidableEq

namespace Header

def terminator : Header where
  recipient := none
  sender := none
  application := ""
  signature := none
  sessionId := 0
  blockSize := 0
  mime := defaultMime
  extension := ""
  userFilename := none
  toDisk := false
  endOfStream := true
  hashes := []

def chunkCount (h : Header) : Nat := h.hashes.length

/-- The expected hash of a chunk. -/
def hash? (h : Header) (number : UInt32) : Option Hash := h.hashes[number.toNat]?

def contentKey (h : Header) : Hash := Hash.contentKey h.hashes

/-- The name under which the content is stored. -/
def storageName (h : Header) : String :=
  if h.endOfStream then ""
  else if h.extension = "" then h.contentKey.toHex
  else h.contentKey.toHex ++ "." ++ h.extension

/-- The name that users see. -/
def filename (h : Header) : String := h.userFilename.getD h.storageName

/-- What a signature covers. -/
def signedPayload (h : Header) : Bytes :=
  Bytes.concat [Fingerprint.toWire h.sender, Fingerprint.toWire h.recipient, h.application.toUTF8,
    h.extension.toUTF8, h.mime.toUTF8, h.filename.toUTF8, Record.flag h.toDisk, Hash.concat h.hashes]

def sign (h : Header) (secret : Bytes) : Except PacketError Header :=
  match h.sender with
  | none => .error (.policy .signatureWithoutSender)
  | some _ =>
    match signWith secret h.signedPayload with
    | .error e => .error (.key e)
    | .ok sig => .ok { h with signature := some sig }

def verify (h : Header) (publicKey : Bytes) : Bool :=
  match h.signature with
  | some sig => Ed25519.verify publicKey h.signedPayload sig
  | none => false

/-- What every header must keep that is no end of stream. -/
def validate (h : Header) : Except PolicyError Unit :=
  if h.endOfStream then .ok ()
  else if h.blockSize = 0 then .error .missingBlockSize
  else if maxBlockSize < h.blockSize then .error (.blockSizeTooLarge h.blockSize)
  else if h.application = "" then .error .missingApplication
  else if h.signature.isSome ∧ h.sender = none then .error .signatureWithoutSender
  else .ok ()

def encode (h : Header) : Bytes :=
  Bytes.concat [Record.blob (Fingerprint.toWire h.recipient), Record.blob (Fingerprint.toWire h.sender),
    Record.text h.application, Record.blob (h.signature.getD ByteArray.empty),
    Record.word h.sessionId.toUInt32, Record.word h.blockSize, Record.text h.mime,
    Record.text h.extension, Record.optional Record.text h.userFilename, Record.flag h.toDisk,
    Record.flag h.endOfStream, Record.hashes h.hashes]

/-- A header as it stands in its record, with nothing checked. -/
structure Raw where
  recipient : Bytes
  sender : Bytes
  application : String
  signature : Bytes
  sessionId : UInt32
  blockSize : UInt32
  mime : String
  extension : String
  userFilename : Option String
  toDisk : Bool
  endOfStream : Bool
  hashes : List Hash

open Record in
def Raw.decoder : Decoder Raw := do
  let recipient ← Decoder.blob
  let sender ← Decoder.blob
  let application ← Decoder.text
  let signature ← Decoder.blob
  let sessionId ← Decoder.word
  let blockSize ← Decoder.word
  let mime ← Decoder.text
  let extension ← Decoder.text
  let userFilename ← Decoder.optional Decoder.text
  let toDisk ← Decoder.flag
  let endOfStream ← Decoder.flag
  let hashes ← Decoder.list Decoder.hash
  return ⟨recipient, sender, application, signature, sessionId, blockSize, mime, extension, userFilename,
    toDisk, endOfStream, hashes⟩

def ofRaw (r : Raw) : Except PolicyError Header := do
  let recipient ← Fingerprint.ofWire r.recipient
  let sender ← Fingerprint.ofWire r.sender
  let h : Header := {
    recipient, sender
    application := r.application
    signature := if r.signature.size = 0 then none else some r.signature
    sessionId := r.sessionId.toInt32
    blockSize := r.blockSize
    mime := if r.mime = "" then defaultMime else r.mime
    extension := cleanExtension r.extension
    userFilename := r.userFilename
    toDisk := r.toDisk
    endOfStream := r.endOfStream
    hashes := r.hashes }
  h.validate
  return h

/-- What a header is built from; a field that is left out takes its default. -/
structure Draft where
  recipient : Option String := none
  sender : Option String := none
  application : Option String := none
  signature : Option Bytes := none
  sessionId : Int32 := 0
  blockSize : Option UInt32 := none
  mime : Option String := none
  extension : Option String := none
  userFilename : Option String := none
  toDisk : Bool := false
  endOfStream : Bool := false
  hashes : List Hash := []

def build (d : Draft) : Except PolicyError Header := do
  Fingerprint.check d.recipient
  Fingerprint.check d.sender
  if d.signature.isSome ∧ d.sender = none then throw .signatureWithoutSender
  let h : Header := {
    recipient := d.recipient
    sender := d.sender
    application := d.application.getD ""
    signature := d.signature
    sessionId := d.sessionId
    blockSize := d.blockSize.getD 0
    mime := d.mime.getD defaultMime
    extension := (d.extension.map cleanExtension).getD ""
    userFilename := d.userFilename
    toDisk := d.toDisk
    endOfStream := d.endOfStream
    hashes := d.hashes }
  h.validate
  return h

end Header
end ChunkRelay
