import ChunkRelay.Packet.Header

/-! Messages as they are kept: what their header said, and a body in memory or in a file. -/
namespace ChunkRelay

inductive Body where
  | inline (content : Bytes)
  | file (path : String)
  deriving DecidableEq

structure Message where
  contentKey : Hash
  recipient : Option String
  sender : Option String
  application : String
  signature : Option Bytes
  sessionId : Int32
  blockSize : UInt32
  mime : String
  extension : String
  userFilename : Option String
  hashes : List Hash
  body : Body
  deriving DecidableEq

namespace Message

def ofHeader (h : Header) (body : Body) : Message where
  contentKey := h.contentKey
  recipient := h.recipient
  sender := h.sender
  application := h.application
  signature := h.signature
  sessionId := h.sessionId
  blockSize := h.blockSize
  mime := h.mime
  extension := h.extension
  userFilename := h.userFilename
  hashes := h.hashes
  body := body

/-- A header to send the message on with. -/
def draft (m : Message) : Header.Draft where
  recipient := m.recipient
  sender := m.sender
  application := some m.application
  signature := m.signature
  sessionId := m.sessionId
  blockSize := some m.blockSize
  mime := some m.mime
  extension := some m.extension
  userFilename := m.userFilename
  hashes := m.hashes

def path? (m : Message) : Option String :=
  match m.body with
  | .file p => some p
  | .inline _ => none

end Message
end ChunkRelay
