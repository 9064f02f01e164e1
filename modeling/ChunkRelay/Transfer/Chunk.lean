import ChunkRelay.Disk
import ChunkRelay.Transfer.Error

/-! Chunks: a body cut into pieces of one size, numbered from zero. Every chunk but the last has exactly
the chunk size. -/
namespace ChunkRelay

structure Chunk where
  number : UInt32
  data : Bytes
  deriving DecidableEq

namespace Chunk

def hash (c : Chunk) : Hash := Hash.chunk c.number c.data

def packet (c : Chunk) : Sequence := Sequence.ofChunk c.number c.data

/-- A chunk size must be positive and leave its packets room in a frame. -/
def checkSize (size : UInt32) : Except PolicyError Unit :=
  if size = 0 then .error .zeroChunkSize
  else if maxBlockSize < size then .error (.blockSizeTooLarge size)
  else .ok ()

/-- How many chunks of `size` bytes a body of `n` bytes needs. -/
def count (n size : Nat) : Nat := (n + size - 1) / size

/-- As many chunks as sequence numbers can tell apart. -/
def maxCount : Nat := Nat.pow 2 32

end Chunk

/-- Cuts a body that is held in memory. -/
structure BodyReader where
  body : Bytes
  size : Nat
  offset : Nat
  number : UInt32

namespace BodyReader

/-- A body that needs more chunks than there are numbers is refused at once. -/
def new (body : Bytes) (size : UInt32) : Except PolicyError BodyReader :=
  match Chunk.checkSize size with
  | .error e => .error e
  | .ok () =>
    if Chunk.count body.size size.toNat > Chunk.maxCount then .error .tooManyChunks
    else .ok ⟨body, size.toNat, 0, 0⟩

def pull (r : BodyReader) : Option Chunk × BodyReader :=
  if r.body.size ≤ r.offset then (none, r)
  else
    let stop := min r.body.size (r.offset + r.size)
    (some ⟨r.number, r.body.extract r.offset stop⟩, { r with offset := stop, number := r.number + 1 })

/-- At most `fuel` further chunks, put behind `acc`. -/
def collect (r : BodyReader) (acc : Array Chunk) : Nat → List Chunk
  | 0 => acc.toList
  | fuel + 1 =>
    match r.pull with
    | (none, _) => acc.toList
    | (some c, r) => collect r (acc.push c) fuel

end BodyReader

/-- The chunks of a body that is held in memory. Each holds a byte, so there are no more of them than bytes. -/
def Chunk.ofBody (b : Bytes) (size : UInt32) : Except PolicyError (List Chunk) :=
  (BodyReader.new b size).map fun r => r.collect #[] b.size

/-- Cuts a source into chunks as they are asked for. It ends for good after the source has ended or a
read has failed. -/
structure ChunkReader (σ : Type) where
  source : σ
  size : UInt32
  next : Nat
  done : Bool

namespace ChunkReader

variable {σ : Type} [ByteSource σ]

def new (source : σ) (size : UInt32) : Except PolicyError (ChunkReader σ) :=
  (Chunk.checkSize size).map fun () => ⟨source, size, 0, false⟩

/-- Reads on from another source. -/
def withSource {φ : Type} (r : ChunkReader σ) (source : φ) : ChunkReader φ := ⟨source, r.size, r.next, r.done⟩

def pull (r : ChunkReader σ) : Option (Except TransferError Chunk) × ChunkReader σ :=
  if r.done then (none, r)
  else match ByteSource.take r.size.toNat r.source with
    | (.error e, s) => (some (.error (.io e)), { r with source := s, done := true })
    | (.ok b, s) =>
      if b.size = 0 then (none, { r with source := s, done := true })
      else if r.next < Chunk.maxCount then
        (some (.ok ⟨UInt32.ofNat r.next, b⟩), { r with source := s, next := r.next + 1 })
      else (some (.error (.policy .tooManyChunks)), { r with source := s, done := true })

end ChunkReader

namespace Source

/-- The hashes of at most `fuel` further chunks, put behind `acc`. -/
def hashChunks (s : Source) (size : Nat) (acc : Array Hash) : Nat → Except TransferError (List Hash)
  | 0 => .ok acc.toList
  | fuel + 1 =>
    match s.take size with
    | (.error e, _) => .error (.io e)
    | (.ok b, s) =>
      if b.size = 0 then .ok acc.toList
      else if acc.size < Chunk.maxCount then
        hashChunks s size (acc.push (Hash.chunk (UInt32.ofNat acc.size) b)) fuel
      else .error (.policy .tooManyChunks)

/-- The hashes of all the chunks of a source, which are not kept. There are no more of them than bytes. -/
def chunkHashes (s : Source) (size : UInt32) : Except TransferError (List Hash) :=
  match Chunk.checkSize size with
  | .error e => .error (.policy e)
  | .ok () => s.hashChunks size.toNat #[] (s.bytes.size + 1)

end Source

/-- Why a file could not be cut into chunks. -/
inductive FileError where
  | openFile (path : String) (cause : IoError)
  | hash (path : String) (cause : TransferError)
  | policy (cause : PolicyError)

namespace FileError

/-- What was being done, then why it failed. -/
def causes : FileError → List String
  | .openFile p e => [s!"failed to open {p}", e.message]
  | .hash p e => s!"failed to hash {p}" :: e.causes
  | .policy e => [e.message]

def message (e : FileError) : String := ": ".intercalate e.causes

end FileError

/-- The hashes of all the chunks of a file. -/
def Disk.chunkHashes (d : Disk) (path : String) (size : UInt32) : Except FileError (List Hash) :=
  match d.openSource path with
  | .error e => .error (.openFile path e)
  | .ok s => (Source.chunkHashes s size).mapError (.hash path)

/-- Opens a file to cut it into chunks. -/
def ChunkReader.ofFile (d : Disk) (path : String) (size : UInt32) : Except FileError (ChunkReader Source) :=
  match d.openSource path with
  | .error e => .error (.openFile path e)
  | .ok s => (ChunkReader.new s size).mapError .policy

end ChunkRelay
