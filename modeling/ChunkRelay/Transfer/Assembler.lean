import ChunkRelay.Datastore
import ChunkRelay.Storage.Files
import ChunkRelay.Transfer.Batch

/-! Assembly: the packets of a session become a stored message. Nothing is kept before every packet has
been checked. -/
namespace ChunkRelay

/-- Writes the chunks of a feed to a sink once they are checked, and counts their bytes. -/
def Verified.writeTo {φ ω : Type} [PacketFeed φ] [ByteSink ω] (h : Header) (packets : φ) (sink : ω) :
    Except TransferError Nat × ω :=
  let v := Verified.new h packets
  let write (p : Sequence) : Verified φ × ω × Nat → Except TransferError Unit × (Verified φ × ω × Nat)
    | (v, w, n) =>
      match ByteSink.push p.bytes w with
      | (.error e, w) => (.error (.io e), (v, w, n))
      | (.ok (), w) => (.ok (), (v, w, n + p.bytes.size))
  match PacketFeed.forEach write v.fuel 0 (v, sink, 0) with
  | (.error e, (_, w, _)) => (.error e, w)
  | (.ok _, (_, w, n)) =>
    match ByteSink.flush w with
    | (.error e, w) => (.error (.io e), w)
    | (.ok (), w) => (.ok n, w)

/-- Checks the packets of a feed, drops them and counts them. -/
def Verified.countAll {φ : Type} [PacketFeed φ] (h : Header) (packets : φ) : Except TransferError Nat :=
  let v := Verified.new h packets
  (PacketFeed.drain v.fuel v).1

/-- What a session turned into. -/
inductive Outcome where
  | inline (content : Bytes)
  | file (path : String)
  | duplicate
  | endOfStream
  deriving DecidableEq

structure Assembler (δ : Type) where
  store : δ
  files : FileStore
  /-- The longest payload that is kept in memory. -/
  threshold : Nat

/-- What pulling a payload into memory came to: all of it, or the part that was too long. -/
inductive Gathered where
  | complete (content : Bytes)
  | overflow (start : Bytes)

namespace Assembler

variable {σ δ : Type} [PacketFeed σ] [Datastore δ]

/-- Pulls chunks into memory until they end or outgrow `limit`. -/
def gather (limit : Nat) (acc : Bytes) : Nat → Session σ → Except TransferError Gathered × Session σ
  | 0, s => (.ok (.complete acc), s)
  | fuel + 1, s =>
    match s.next with
    | (none, s) => (.ok (.complete acc), s)
    | (some (.error e), s) => (.error e, s)
    | (some (.ok p), s) =>
      let acc := acc ++ p.bytes
      if limit < acc.size then (.ok (.overflow acc), s) else gather limit acc fuel s

/-- Writes `start` and all further chunks to a part file and commits it. A part file whose chunks fail is
removed. -/
def writeFile (files : FileStore) (path : String) (start : Bytes) (s : Session σ) :
    Except TransferError Commit × FileStore × Session σ :=
  match files.createPart path with
  | (.error e, files) => (.error (.storage e), files, s)
  | (.ok part, files) =>
    let (part, files) := files.writePart part start
    let write (p : Sequence) :
        Session σ × PartFile × FileStore → Except TransferError Unit × (Session σ × PartFile × FileStore)
      | (s, part, files) => (.ok (), (s, files.writePart part p.bytes))
    match PacketFeed.forEach write s.fuel 0 (s, part, files) with
    | (.error e, (s, part, files)) => (.error e, files.dropPart part, s)
    | (.ok _, (s, part, files)) =>
      match files.commit part with
      | (.error e, files) => (.error (.storage e), files, s)
      | (.ok c, files) => (.ok c, files, s)

/-- Whether the datastore has the content already, by its key or by its file. -/
def isKnown (a : Assembler δ) (key : Hash) (path : String) : Except TransferError Bool × Assembler δ :=
  match Datastore.hasKey key a.store with
  | (.error e, d) => (.error (.datastore e), { a with store := d })
  | (.ok true, d) => (.ok true, { a with store := d })
  | (.ok false, d) =>
    match Datastore.countPath path d with
    | (.error e, d) => (.error (.datastore e), { a with store := d })
    | (.ok n, d) => (.ok (n > 0), { a with store := d })

def persistInline (a : Assembler δ) (h : Header) (content : Bytes) : Except TransferError Outcome × Assembler δ :=
  match Datastore.persist (.ofHeader h (.inline content)) a.store with
  | (.error e, d) => (.error (.datastore e), { a with store := d })
  | (.ok true, d) => (.ok (.inline content), { a with store := d })
  | (.ok false, d) => (.ok .duplicate, { a with store := d })

/-- Records a committed file. One that this call put there goes again if it cannot be recorded. -/
def persistFile (a : Assembler δ) (h : Header) (path : String) (c : Commit) :
    Except TransferError Outcome × Assembler δ :=
  match Datastore.persist (.ofHeader h (.file path)) a.store with
  | (.ok true, d) => (.ok (.file path), { a with store := d })
  | (.ok false, d) => (.ok .duplicate, { a with store := d })
  | (.error e, d) =>
    let files := if c = .written then (a.files.delete path).2 else a.files
    (.error (.datastore e), { a with store := d, files })

/-- Stores a payload in a file that begins with `start`. -/
def storeFile (a : Assembler δ) (path : String) (start : Bytes) (s : Session σ) :
    Except TransferError Outcome × Assembler δ × Session σ :=
  match writeFile a.files path start s with
  | (.error e, files, s) => (.error e, { a with files }, s)
  | (.ok c, files, s) =>
    let (result, a) := { a with files }.persistFile s.header path c
    (result, a, s)

def storeSession (a : Assembler δ) (s : Session σ) : Except TransferError Outcome × Assembler δ × Session σ :=
  let path := a.files.pathFor s.header
  match a.isKnown s.header.contentKey path with
  | (.error e, a) => (.error e, a, s)
  | (.ok true, a) =>
    match PacketFeed.drain s.fuel s with
    | (.error e, s) => (.error e, a, s)
    | (.ok _, s) => (.ok .duplicate, a, s)
  | (.ok false, a) =>
    if s.header.toDisk then a.storeFile path ByteArray.empty s
    else match gather a.threshold ByteArray.empty s.fuel s with
      | (.error e, s) => (.error e, a, s)
      | (.ok (.complete content), s) =>
        let (result, a) := a.persistInline s.header content
        (result, a, s)
      | (.ok (.overflow start), s) => a.storeFile path start s

/-- Takes in a session. The session is used up and its state is settled. -/
def assemble (a : Assembler δ) (s : Session σ) : Except TransferError Outcome × Assembler δ × Session σ :=
  if s.header.endOfStream then
    match PacketFeed.drain s.fuel s with
    | (.error e, s) => (.error e, a, s)
    | (.ok _, s) => (.ok .endOfStream, a, s)
  else match a.storeSession s with
    | (.error e, a, s) => (.error e, a, s.fail e)
    | (.ok outcome, a, s) => (.ok outcome, a, s.abandon)

/-- The next session of an inbox with its header and what it turned into, or nothing where the batch
ends. -/
def receive {δ : Type} [Datastore δ] (a : Assembler δ) (i : Inbox) :
    Except TransferError (Option (Header × Except TransferError Outcome)) × Assembler δ × Inbox :=
  match i.nextHeader with
  | (.error e, i) => (.error e, a, i)
  | (.ok none, i) => (.ok none, a, i)
  | (.ok (some h), i) =>
    let (result, a, s) := a.assemble (Session.inbound h i)
    (.ok (some (h, result)), a, s.packets.inner)

end Assembler
end ChunkRelay
