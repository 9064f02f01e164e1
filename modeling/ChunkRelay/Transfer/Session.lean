import ChunkRelay.Message
import ChunkRelay.Disk
import ChunkRelay.Transfer.Chunk

/-! Sessions: one header with the chunks that it lists, pulled one at a time. Each packet is checked as
it is pulled, and the session's state tells how the pulling ended. -/
namespace ChunkRelay

/-- What one pull of packets may bring. -/
abbrev Delivery : Type := Except TransferError Sequence

/-- What packets can be pulled from. -/
class PacketFeed (σ : Type) where
  next : σ → Option Delivery × σ

instance : PacketFeed (List Delivery) where
  next
    | [] => (none, [])
    | d :: r => (some d, r)

instance {σ : Type} [ByteSource σ] : PacketFeed (ChunkReader σ) where
  next r :=
    match r.pull with
    | (none, r) => (none, r)
    | (some d, r) => (some (d.map Chunk.packet), r)

instance {σ : Type} [ByteSink σ] : ByteSink (ChunkReader σ) where
  push b r := let (result, s) := ByteSink.push b r.source; (result, { r with source := s })
  flush r := let (result, s) := ByteSink.flush r.source; (result, { r with source := s })

/-! A feed and whatever goes along with it: packets come from the first, bytes go to the second. -/

instance {φ ω : Type} [PacketFeed φ] : PacketFeed (φ × ω) where
  next | (f, w) => let (d, f) := PacketFeed.next f; (d, (f, w))

instance {φ ω : Type} [ByteSink ω] : ByteSink (φ × ω) where
  push | b, (f, w) => let (result, w) := ByteSink.push b w; (result, (f, w))
  flush | (f, w) => let (result, w) := ByteSink.flush w; (result, (f, w))

namespace PacketFeed

variable {σ : Type} [PacketFeed σ]

/-- Pulls packets until the feed ends and acts on each. The first failure, of a pull or of an action,
ends it; otherwise the number of packets comes out. No more than `fuel` packets are pulled. -/
def forEach (act : Sequence → σ → Except TransferError Unit × σ) : Nat → Nat → σ → Except TransferError Nat × σ
  | 0, count, s => (.ok count, s)
  | fuel + 1, count, s =>
    match PacketFeed.next s with
    | (none, s) => (.ok count, s)
    | (some (.error e), s) => (.error e, s)
    | (some (.ok p), s) =>
      match act p s with
      | (.error e, s) => (.error e, s)
      | (.ok (), s) => forEach act fuel (count + 1) s

/-- Pulls packets and drops them. -/
def drain (fuel : Nat) (s : σ) : Except TransferError Nat × σ := forEach (fun _ s => (.ok (), s)) fuel 0 s

end PacketFeed

/-- A feed whose packets are checked against a list of hashes: that none is missing, out of order,
altered or too many. It ends for good at the first failure. -/
structure Verified (σ : Type) where
  inner : σ
  /-- Hashes of the chunks that are still to come. -/
  remaining : List Hash
  received : Nat
  done : Bool

namespace Verified

variable {σ : Type}

def new (h : Header) (inner : σ) : Verified σ := ⟨inner, h.hashes, 0, false⟩

def expected (v : Verified σ) : Nat := v.received + v.remaining.length

/-- The hashes that are left when `p` is the packet that is due. -/
def check (v : Verified σ) (p : Sequence) : Except TransferError (List Hash) :=
  match v.remaining with
  | [] => .error (.overrun v.expected)
  | hash :: rest =>
    let due := UInt32.ofNat v.received
    if p.number ≠ due then .error (.outOfOrder due p.number)
    else if p.hash ≠ hash then .error (.integrity p.number)
    else .ok rest

def next [PacketFeed σ] (v : Verified σ) : Option Delivery × Verified σ :=
  if v.done then (none, v)
  else match PacketFeed.next v.inner with
    | (none, s) =>
      let v' := { v with inner := s, done := true }
      if v.remaining.isEmpty then (none, v') else (some (.error (.truncated v.received v.expected)), v')
    | (some (.error e), s) => (some (.error e), { v with inner := s, done := true })
    | (some (.ok p), s) =>
      match v.check p with
      | .error e => (some (.error e), { v with inner := s, done := true })
      | .ok rest => (some (.ok p), { v with inner := s, remaining := rest, received := v.received + 1 })

instance [PacketFeed σ] : PacketFeed (Verified σ) := ⟨next⟩

/-- Every pull but the last takes a hash off the list, so this many pulls reach the end. -/
def fuel (v : Verified σ) : Nat := v.remaining.length + 1

end Verified

inductive SessionState where
  | unfinished
  | completed
  | failed (reason : String)
  deriving DecidableEq, Repr

structure Session (σ : Type) where
  header : Header
  packets : Verified σ
  last : Bool
  state : SessionState

namespace Session

variable {σ : Type}

def isOpen (s : Session σ) : Bool := s.state = .unfinished

def fuel (s : Session σ) : Nat := s.packets.fuel

/-- The session with its packets pulled from another feed. -/
def withFeed {φ : Type} (s : Session σ) (feed : φ) : Session φ :=
  ⟨s.header, ⟨feed, s.packets.remaining, s.packets.received, s.packets.done⟩, s.last, s.state⟩

/-- Sets the final state. Only the first call has an effect. -/
def settle (s : Session σ) (state : SessionState) : Session σ :=
  if s.isOpen then { s with state } else s

def fail (s : Session σ) (e : TransferError) : Session σ := s.settle (.failed e.message)

/-- What happens to a session that nobody pulls any further. -/
def abandon (s : Session σ) : Session σ := s.fail .abandoned

/-- Pulls one packet. The end of the packets completes the session, a failure fails it. -/
def next [PacketFeed σ] (s : Session σ) : Option Delivery × Session σ :=
  if s.isOpen then
    match s.packets.next with
    | (none, v) => (none, { s with packets := v }.settle .completed)
    | (some (.error e), v) => (some (.error e), { s with packets := v }.fail e)
    | (some (.ok p), v) => (some (.ok p), { s with packets := v })
  else (none, s)

instance [PacketFeed σ] : PacketFeed (Session σ) := ⟨next⟩

instance [ByteSink σ] : ByteSink (Session σ) where
  push b s :=
    let (result, i) := ByteSink.push b s.packets.inner
    (result, { s with packets := { s.packets with inner := i } })
  flush s :=
    let (result, i) := ByteSink.flush s.packets.inner
    (result, { s with packets := { s.packets with inner := i } })

def withPackets (h : Header) (packets : σ) (last : Bool) : Session σ := ⟨h, .new h packets, last, .unfinished⟩

/-- A session that a peer sends. -/
def inbound (h : Header) (packets : σ) : Session σ := withPackets h packets h.endOfStream

/-- A session that sends a message. `last` marks the last one of a batch, `toDisk` tells the receiver
where to keep the payload. -/
def outbound (m : Message) (packets : σ) (last toDisk : Bool) : Except TransferError (Session σ) :=
  match Header.build { m.draft with toDisk } with
  | .error e => .error (.policy e)
  | .ok h => .ok (withPackets h packets last)

/-- The end of a batch, which carries nothing and is complete from the start. -/
def terminator : Session (List Delivery) :=
  { withPackets Header.terminator [] true with state := .completed }

/-- Whether a payload of this length is kept in a file. -/
def storedOnDisk (threshold length : Nat) : Bool := threshold < length

/-- Sends a body that is held in memory. -/
def ofBytes (m : Message) (body : Bytes) (threshold : Nat) (last : Bool) :
    Except TransferError (Session (List Delivery)) :=
  match Chunk.ofBody body m.blockSize with
  | .error e => .error (.policy e)
  | .ok chunks => outbound m (chunks.map fun c => .ok c.packet) last (storedOnDisk threshold body.size)

/-- Sends what a source holds, reading it as the packets are pulled. -/
def ofSource [ByteSource σ] (m : Message) (source : σ) (length threshold : Nat) (last : Bool) :
    Except TransferError (Session (ChunkReader σ)) :=
  match ChunkReader.new source m.blockSize with
  | .error e => .error (.policy e)
  | .ok r => outbound m r last (storedOnDisk threshold length)

/-- Sends a file. -/
def ofFile (m : Message) (disk : Disk) (path : String) (threshold : Nat) (last : Bool) :
    Except TransferError (Session (ChunkReader Source)) :=
  match disk.openSource path, disk.stat path with
  | .ok source, .ok entry => ofSource m source entry.length threshold last
  | .error e, _ => .error (.io e)
  | _, .error e => .error (.io e)

end Session
end ChunkRelay
