import ChunkRelay.Path
import ChunkRelay.Place
import ChunkRelay.Sorted
import ChunkRelay.Stream.Source
import ChunkRelay.Text.Utf8

/-! A file tree and the steps that programs take on it. A path is walked name by name from the root or
from the working directory, and what the walk meets decides how a step fails. -/
namespace ChunkRelay

inductive Entry where
  | file (content : Bytes) (mode : Nat)
  | directory
  deriving DecidableEq

/-- A file with more behind its content. A directory has no content. -/
def Entry.append : Entry → Bytes → Entry
  | .file c m, b => .file (c ++ b) m
  | .directory, _ => .directory

def Entry.setMode : Entry → Nat → Entry
  | .file c _, mode => .file c mode
  | .directory, _ => .directory

/-- A directory, too, reports a length. -/
def Entry.length : Entry → Nat
  | .file c _ => c.size
  | .directory => 4096

structure Disk where
  entries : SortedMap Place Entry
  workDir : Place

namespace Disk

/-- Permissions of a new file: its owner may write it and all may read it. -/
def defaultMode : Nat := 0o644

/-- A tree of the directories on the way to `workDir`. -/
def ofWorkDir (workDir : Place) : Disk :=
  ⟨.ofList (workDir.onWay.map fun p => (p, .directory)), workDir⟩

def entry? (d : Disk) (p : Place) : Option Entry := if p = .root then some .directory else d.entries.get? p

def set (d : Disk) (p : Place) (e : Entry) : Disk := { d with entries := d.entries.insert p e }

def remove (d : Disk) (p : Place) : Disk := { d with entries := d.entries.erase p }

/-! Walking a path. -/

/-- Where a path leads. `named` is false where it ends in dots or at the root, and `slash` is true where
its text ends in a slash. -/
structure Target where
  place : Place
  named : Bool
  slash : Bool

def maxName : Nat := 255

/-- The longest path that a step takes, in octets. -/
def maxPath : Nat := 4095

/-- Whether the last name is longer than names may be. -/
def Target.isTooLong (t : Target) : Bool := t.named && t.place.name?.any (·.utf8ByteSize > maxName)

/-- Where the walk along a path begins. -/
def start (d : Disk) (path : String) : Place := if Path.isAbsolute path then .root else d.workDir

/-- Walks through directories, starting at one. -/
def walk (d : Disk) : Place → List String → Except IoError Place
  | at_, [] => .ok at_
  | at_, w :: r =>
    if w = "." then d.walk at_ r
    else if w = ".." then d.walk at_.parent r
    else if w.utf8ByteSize > maxName then .error .nameTooLong
    else match d.entry? (at_.child w) with
      | none => .error .notFound
      | some (.file ..) => .error .notDirectory
      | some .directory => d.walk (at_.child w) r

/-- The target of the last name of a path, read from a directory. -/
def lastTarget (at_ : Place) (w : String) (slash : Bool) : Target :=
  if w = "." then ⟨at_, false, slash⟩
  else if w = ".." then ⟨at_.parent, false, slash⟩
  else ⟨at_.child w, true, slash⟩

/-- The target of a path, found without a look at its last name. -/
def target (d : Disk) (path : String) : Except IoError Target :=
  if path.contains '\x00' then .error .zeroInName
  else if path = "" then .error .notFound
  else if path.utf8ByteSize > maxPath then .error .nameTooLong
  else match (Path.steps path).reverse with
    | [] => .ok ⟨d.start path, false, true⟩
    | last :: before =>
      match d.walk (d.start path) before.reverse with
      | .error e => .error e
      | .ok at_ => .ok (lastTarget at_ last (path.endsWith "/"))

def resolve (d : Disk) (path : String) : Except IoError Target :=
  match d.target path with
  | .error e => .error e
  | .ok t => if t.isTooLong then .error .nameTooLong else .ok t

/-! Looking. -/

def stat (d : Disk) (path : String) : Except IoError Entry :=
  match d.resolve path with
  | .error e => .error e
  | .ok t =>
    match d.entry? t.place with
    | none => .error .notFound
    | some .directory => .ok .directory
    | some (.file c m) => if t.slash then .error .notDirectory else .ok (.file c m)

def exists? (d : Disk) (path : String) : Bool := (d.stat path).toBool

def isDirectory (d : Disk) (path : String) : Bool :=
  match d.stat path with
  | .ok .directory => true
  | _ => false

/-- Opens a file for reading. A directory can be opened, and fails when it is read. -/
def openSource (d : Disk) (path : String) : Except IoError Source :=
  match d.stat path with
  | .error e => .error e
  | .ok (.file c _) => .ok (.ofBytes c)
  | .ok .directory => .ok (.broken .isDirectory)

def read (d : Disk) (path : String) : Except IoError Bytes :=
  match d.stat path with
  | .error e => .error e
  | .ok (.file c _) => .ok c
  | .ok .directory => .error .isDirectory

def readText (d : Disk) (path : String) : Except IoError String :=
  match d.read path with
  | .error e => .error e
  | .ok b => (String.fromUTF8? b).elim (.error .notText) .ok

/-- What a directory holds, by name. -/
def children (d : Disk) (p : Place) : List (String × Entry) :=
  d.entries.entries.filterMap fun (q, e) =>
    match q.name? with
    | some name => if q.parent = p then some (name, e) else none
    | none => none

/-- The names in a directory, if the path leads to one. -/
def list? (d : Disk) (path : String) : Option (List (String × Entry)) :=
  match d.resolve path with
  | .error _ => none
  | .ok t => if d.entry? t.place = some .directory then some (d.children t.place) else none

/-- The places that a path passes, read from a directory, as if all its names were directories. -/
def passed (at_ : Place) : List String → List Place
  | [] => []
  | w :: r =>
    let at_ := if Path.isBlank w then at_ else if w = ".." then at_.parent else at_.child w
    at_ :: passed at_ r

/-- The places that a path leads through and to. -/
def placesOn (d : Disk) (path : String) : List Place :=
  passed (d.start path) (Path.steps path)

/-- The places at which two trees differ, in order. -/
def differences (old new : Disk) : List Place :=
  (old.entries.entries.map (·.1)).filter (fun p => new.entries.get? p ≠ old.entries.get? p) ++
    (new.entries.entries.map (·.1)).filter fun p => (old.entries.get? p).isNone

/-! Changing. A step that fails changes nothing. -/

/-- Opens a file for writing and empties it, or makes it. A path that ends in a slash is refused before a
look at its last name. -/
def create (d : Disk) (path : String) : Except IoError (Place × Disk) :=
  match d.target path with
  | .error e => .error e
  | .ok t =>
    if ¬ t.named ∨ t.slash then .error .isDirectory
    else if t.isTooLong then .error .nameTooLong
    else match d.entry? t.place with
      | none => .ok (t.place, d.set t.place (.file ByteArray.empty defaultMode))
      | some (.file _ m) => .ok (t.place, d.set t.place (.file ByteArray.empty m))
      | some .directory => .error .isDirectory

/-- Makes a file that must not be there yet. -/
def createNew (d : Disk) (path : String) : Except IoError (Place × Disk) :=
  match d.target path with
  | .error e => .error e
  | .ok t =>
    if ¬ t.named then .error .exists
    else if t.slash then .error .isDirectory
    else if t.isTooLong then .error .nameTooLong
    else match d.entry? t.place with
      | none => .ok (t.place, d.set t.place (.file ByteArray.empty defaultMode))
      | some _ => .error .exists

/-- Writes to the end of an open file. What is written to a file that is gone reaches no one. -/
def append (d : Disk) (p : Place) (b : Bytes) : Disk :=
  { d with entries := d.entries.modify p (·.append b) }

def setMode (d : Disk) (p : Place) (mode : Nat) : Disk :=
  { d with entries := d.entries.modify p (·.setMode mode) }

/-- Replaces the content of a file, or makes it. -/
def write (d : Disk) (path : String) (b : Bytes) : Except IoError Disk :=
  match d.create path with
  | .error e => .error e
  | .ok (p, d) => .ok (d.append p b)

def unlink (d : Disk) (path : String) : Except IoError Disk :=
  match d.resolve path with
  | .error e => .error e
  | .ok t =>
    if ¬ t.named then .error .isDirectory
    else match d.entry? t.place with
      | none => .error .notFound
      | some .directory => .error .isDirectory
      | some (.file ..) => if t.slash then .error .notDirectory else .ok (d.remove t.place)

/-- Gives a file a second name, which must be free. -/
def link (d : Disk) (old new : String) : Except IoError Disk :=
  match d.stat old, d.resolve new with
  | .error e, _ => .error e
  | _, .error e => .error e
  | .ok e, .ok t =>
    if ¬ t.named then .error .exists
    else if (d.entry? t.place).isSome then .error .exists
    else if t.slash then .error .notFound
    else if e = .directory then .error (.other "Operation not permitted (os error 1)")
    else .ok (d.set t.place e)

/-- Moves a file, over another one if there is one. -/
def rename (d : Disk) (old new : String) : Except IoError Disk :=
  match d.target old, d.target new with
  | .error e, _ => .error e
  | _, .error e => .error e
  | .ok s, .ok t =>
    if ¬ s.named ∨ ¬ t.named then .error (.other "Device or resource busy (os error 16)")
    else if s.isTooLong then .error .nameTooLong
    else match d.entry? s.place with
      | none => .error .notFound
      | some .directory => .error .isDirectory
      | some e =>
        if t.isTooLong then .error .nameTooLong
        else if s.slash ∨ t.slash then .error .notDirectory
        else match d.entry? t.place with
          | some .directory => .error .isDirectory
          | _ => .ok (if s.place = t.place then d else (d.remove s.place).set t.place e)

def makeDirectory (d : Disk) (path : String) : Except IoError Disk :=
  match d.resolve path with
  | .error e => .error e
  | .ok t =>
    if ¬ t.named then .error .exists
    else if (d.entry? t.place).isSome then .error .exists
    else .ok (d.set t.place .directory)

/-- Makes a directory at a path whose parent is there, unless it is one already. -/
def ensureDirectory (d : Disk) (path : String) : Except IoError Unit × Disk :=
  match d.makeDirectory path with
  | .ok d => (.ok (), d)
  | .error e => (if d.isDirectory path then .ok () else .error e, d)

/-- Makes the directories on a walk that are missing. -/
def makeAlong (d : Disk) (at_ : Place) : List String → Except IoError Unit × Disk
  | [] => (.ok (), d)
  | w :: r =>
    if w = "." then d.makeAlong at_ r
    else if w = ".." then d.makeAlong at_.parent r
    else if w.utf8ByteSize > maxName then (.error .nameTooLong, d)
    else match d.entry? (at_.child w) with
      | some .directory => d.makeAlong (at_.child w) r
      | some (.file ..) => (.error .exists, d)
      | none => (d.set (at_.child w) .directory).makeAlong (at_.child w) r

/-- Makes a directory and those above it that are missing. What was made before a failure stays. -/
def makeDirectories (d : Disk) (path : String) : Except IoError Unit × Disk :=
  if path = "" then (.ok (), d)
  else match d.makeDirectory path with
    | .ok d => (.ok (), d)
    | .error .notFound =>
      match d.makeAlong (d.start path) (Path.steps ((Path.parent? path).getD "")) with
      | (.error e, d) => (.error e, d)
      | (.ok (), d) => d.ensureDirectory path
    | .error e => (if d.isDirectory path then .ok () else .error e, d)

/-- Writes a file, making the directories above it that are missing. -/
def place (d : Disk) (path : String) (b : Bytes) : Except IoError Unit × Disk :=
  let d := ((Path.parent? path).map fun p => (d.makeDirectories p).2).getD d
  match d.write path b with
  | .error e => (.error e, d)
  | .ok d => (.ok (), d)

/-- The tree without what lies below a place. -/
def emptied (d : Disk) (p : Place) : Disk :=
  { d with entries := ⟨d.entries.entries.filter fun a => a.1 = p || !p.contains a.1, d.entries.sorted.filter _⟩ }

/-- Removes an empty directory, by a path that ends in its name. -/
def removeDirectory (d : Disk) (path : String) : Except IoError Disk :=
  match d.resolve path with
  | .error e => .error e
  | .ok t =>
    if ¬ t.named then .error (.other "Invalid argument (os error 22)")
    else match d.entry? t.place with
      | none => .error .notFound
      | some (.file ..) => .error .notDirectory
      | some .directory =>
        if (d.children t.place).isEmpty then .ok (d.remove t.place)
        else .error (.other "Directory not empty (os error 39)")

/-- Removes what is in a directory, then the directory. Where the path itself leads through what was in the
directory it finds nothing any more, and the directory stays. -/
def removeTree (d : Disk) (path : String) : Except IoError Unit × Disk :=
  match d.resolve path with
  | .error e => (.error e, d)
  | .ok t =>
    match d.entry? t.place with
    | none => (.error .notFound, d)
    | some (.file ..) => (.error .notDirectory, d)
    | some .directory =>
      let d := d.emptied t.place
      match d.removeDirectory path with
      | .ok d => (.ok (), d)
      | .error .notFound => (.ok (), d)
      | .error e => (.error e, d)

end Disk
end ChunkRelay
