import ChunkRelay.Disk
import ChunkRelay.Stream.Sink

/-! Two open files of one disk: one is read from its start on, the other is written through a buffer.
Where both are the same file, what has been written is what is read. -/
namespace ChunkRelay

structure FilePipe where
  disk : Disk
  input : Place
  pos : Nat
  output : Place
  /-- Bytes that are accepted but not written yet. -/
  buffer : Bytes

namespace FilePipe

def capacity : Nat := 8192

/-- Up to `n` bytes of the input as it is now. -/
def take (n : Nat) (p : FilePipe) : Except IoError Bytes × FilePipe :=
  match p.disk.entry? p.input with
  | some (.file c _) =>
    let b := c.slice p.pos n
    (.ok b, { p with pos := p.pos + b.size })
  | _ => (.error .isDirectory, p)

/-- Writes what the buffer holds. -/
def settle (p : FilePipe) : FilePipe :=
  { p with disk := p.disk.append p.output p.buffer, buffer := ByteArray.empty }

/-- Empties the buffer if the bytes do not fit with what it holds. -/
def makeRoom (n : Nat) (p : FilePipe) : FilePipe := if p.buffer.size + n > capacity then p.settle else p

/-- What would fill the buffer alone goes past it. -/
def push (b : Bytes) (p : FilePipe) : FilePipe :=
  let p := p.makeRoom b.size
  if b.size < capacity then { p with buffer := p.buffer ++ b }
  else { p with disk := p.disk.append p.output b }

instance : ByteSource FilePipe := ⟨take⟩

instance : ByteSink FilePipe where
  push b p := (.ok (), p.push b)
  flush p := (.ok (), p.settle)

end FilePipe
end ChunkRelay
