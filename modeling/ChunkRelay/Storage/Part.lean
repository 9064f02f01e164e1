import ChunkRelay.Storage.Files
import ChunkRelay.Storage.Pipe

/-! Part files in the hands of their writers. What is written passes through a buffer, and the buffer is emptied before
the part file is linked or removed. -/
namespace ChunkRelay

/-- A part file that is open for writing. -/
structure PartWriter where
  part : PartFile
  /-- Bytes that are accepted but not written yet. -/
  buffer : Bytes

namespace PartWriter

def ofPart (part : PartFile) : PartWriter := ⟨part, ByteArray.empty⟩

/-- The bytes accepted so far. -/
def written (w : PartWriter) : Nat := w.part.written + w.buffer.size

def flush (w : PartWriter) (s : FileStore) : PartWriter × FileStore :=
  let (part, s) := s.writePart w.part w.buffer
  (.ofPart part, s)

/-- Empties the buffer if the bytes do not fit with what it holds. -/
def makeRoom (w : PartWriter) (n : Nat) (s : FileStore) : PartWriter × FileStore :=
  if w.buffer.size + n > FilePipe.capacity then w.flush s else (w, s)

/-- What would fill the buffer alone goes past it. -/
def write (w : PartWriter) (b : Bytes) (s : FileStore) : PartWriter × FileStore :=
  let (w, s) := w.makeRoom b.size s
  if b.size < FilePipe.capacity then ({ w with buffer := w.buffer ++ b }, s)
  else
    let (part, s) := s.writePart w.part b
    ({ w with part }, s)

/-- Writes what the buffer holds and links the part file to its target. -/
def commit (w : PartWriter) (s : FileStore) : Except StorageError Commit × FileStore :=
  let (w, s) := w.flush s
  s.commit w.part

/-- Gives up a part file, which is removed. -/
def drop (w : PartWriter) (s : FileStore) : FileStore :=
  let (w, s) := w.flush s
  s.dropPart w.part

end PartWriter
end ChunkRelay
