import ChunkRelay.Disk
import ChunkRelay.Packet.Header
import ChunkRelay.Storage.Error

/-! Files of a node: a cache for what peers send, named by its content, and a directory for what users
keep. A file is written under a name of its own and linked to its place at the end, so a place that is
taken is never written over. -/
namespace ChunkRelay

structure FileStore where
  disk : Disk
  cacheDir : String
  userDir : String
  /-- What tells the part files of this store from those of others. -/
  owner : Nat
  /-- Part files begun so far. -/
  begun : Nat

/-- A file that is being written and is to appear at `target`. -/
structure PartFile where
  path : String
  target : String
  place : Place
  written : Nat

/-- What became of a part file: it appeared at its target, or the target was taken. -/
inductive Commit where
  | written
  | alreadyPresent
  deriving DecidableEq, Repr

namespace FileStore

/-- Makes both directories where they are missing. -/
def openAt (disk : Disk) (cacheDir userDir : String) (owner : Nat) : Except StorageError Unit × FileStore :=
  let store (d : Disk) : FileStore := ⟨d, cacheDir, userDir, owner, 0⟩
  match disk.makeDirectories cacheDir with
  | (.error e, d) => (.error (.makeDirectory cacheDir e), store d)
  | (.ok (), d) =>
    match d.makeDirectories userDir with
    | (.error e, d) => (.error (.makeDirectory userDir e), store d)
    | (.ok (), d) => (.ok (), store d)

/-- Where the content of a message is kept. -/
def pathFor (s : FileStore) (h : Header) : String := Path.join s.cacheDir h.storageName

/-- The name of a part file: hidden, and unlike that of any other part file. -/
def partName (s : FileStore) (name : String) : String := s!".{name}.{s.owner}-{s.begun}.part"

def createPart (s : FileStore) (target : String) : Except StorageError PartFile × FileStore :=
  let path := Path.withFileName target (s.partName ((Path.fileName? target).getD "message"))
  let s := { s with begun := s.begun + 1 }
  match s.disk.createNew path with
  | .error e => (.error (.createPart path e), s)
  | .ok (place, d) => (.ok ⟨path, target, place, 0⟩, { s with disk := d })

def writePart (s : FileStore) (p : PartFile) (b : Bytes) : PartFile × FileStore :=
  ({ p with written := p.written + b.size }, { s with disk := s.disk.append p.place b })

/-- Removes a part file, if it is still there. -/
def dropPart (s : FileStore) (p : PartFile) : FileStore :=
  match s.disk.unlink p.path with
  | .ok d => { s with disk := d }
  | .error _ => s

/-- Links a part file to its target. The part file itself goes in any case. -/
def commit (s : FileStore) (p : PartFile) : Except StorageError Commit × FileStore :=
  match s.disk.link p.path p.target with
  | .ok d => (.ok .written, { s with disk := d }.dropPart p)
  | .error .exists => (.ok .alreadyPresent, s.dropPart p)
  | .error e => (.error (.link p.path p.target e), s.dropPart p)

def size (s : FileStore) (path : String) : Except StorageError Nat :=
  ((s.disk.stat path).map Entry.length).mapError (.stat path)

def openFile (s : FileStore) (path : String) : Except StorageError Source :=
  (s.disk.openSource path).mapError (.openFile path)

def delete (s : FileStore) (path : String) : Except StorageError Unit × FileStore :=
  match s.disk.unlink path with
  | .ok d => (.ok (), { s with disk := d })
  | .error e => (.error (.delete path e), s)

/-- Copies a file into the user directory under the last name of `name`, where no file may be yet. -/
def copyIn (s : FileStore) (source name : String) : Except StorageError String × FileStore :=
  match Path.fileName? name with
  | none => (.error (.unusableName name), s)
  | some last =>
    let dest := Path.join s.userDir last
    match s.disk.createNew dest with
    | .error e => (.error (.create dest e), s)
    | .ok (place, d) =>
      let s := { s with disk := d }
      match d.openSource source with
      | .error e => (.error (.openFile source e), s)
      | .ok _ =>
        match d.read source with
        | .error e => (.error (.copy dest e), s)
        | .ok b => (.ok dest, { s with disk := d.append place b })

end FileStore
end ChunkRelay
