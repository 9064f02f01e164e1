import ChunkRelay.Message
import ChunkRelay.Path
import ChunkRelay.Packet.Declare

/-! Where messages are kept. Any call on a datastore may fail, for reasons of its own, and may change
what the datastore holds. -/
namespace ChunkRelay

class Datastore (δ : Type) where
  /-- How many messages have their body in the file at this path. -/
  countPath : String → δ → Except String Nat × δ
  hasKey : Hash → δ → Except String Bool × δ
  /-- Adds a message, unless one with its content key is there. -/
  persist : Message → δ → Except String Bool × δ
  get? : Hash → δ → Except String (Option Message) × δ
  known : δ → Except String (List Hash) × δ

/-- Messages in memory, with the paths of the files that they name. -/
structure MemoryStore where
  messages : SortedMap Hash Message
  paths : List (List String)

namespace MemoryStore

def empty : MemoryStore := ⟨.empty, []⟩

def size (s : MemoryStore) : Nat := s.messages.entries.length

def isEmpty (s : MemoryStore) : Bool := s.messages.isEmpty

def add (s : MemoryStore) (m : Message) : MemoryStore where
  messages := s.messages.insert m.contentKey m
  paths := match m.path? with
    | some p => (Path.names p) :: s.paths
    | none => s.paths

instance : Datastore MemoryStore where
  countPath p s := (.ok (if Path.names p ∈ s.paths then 1 else 0), s)
  hasKey k s := (.ok (s.messages.contains k), s)
  persist m s := if s.messages.contains m.contentKey then (.ok false, s) else (.ok true, s.add m)
  get? k s := (.ok (s.messages.get? k), s)
  known s := (.ok s.messages.keys, s)

end MemoryStore

/-- A datastore that keeps nothing and gives the same answers to every call. -/
structure ConstantStore where
  path : Except String Nat
  hash : Except String Bool
  persisted : Except String Bool

instance : Datastore ConstantStore where
  countPath _ s := (s.path, s)
  hasKey _ s := (s.hash, s)
  persist _ s := (s.persisted, s)
  get? _ s := (.ok none, s)
  known s := (.ok [], s)

end ChunkRelay
