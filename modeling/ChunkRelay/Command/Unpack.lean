import ChunkRelay.Command.Error
import ChunkRelay.Transfer.Assembler

/-! Unpacking: every session of a batch becomes a file below one directory. -/
namespace ChunkRelay

/-- What became of a session. -/
inductive Arrival where
  | file (path : String)
  | inline (path : String) (size : Nat)
  | duplicate (name : String)
  deriving DecidableEq, Repr

namespace Unpack

/-- Writes an inline payload to the user directory under the last name of `name`, where no file may be
yet. -/
def keepInline (files : FileStore) (name : String) (content : Bytes) :
    Except CommandError String × FileStore :=
  match Path.fileName? name with
  | none => (.error (.unusableName name), files)
  | some last =>
    let dest := Path.join files.userDir last
    match files.disk.createNew dest with
    | .error e => (.error (.create dest e), files)
    | .ok (place, d) => (.ok dest, { files with disk := d.append place content })

/-- Stores what a session turned into, or nothing where the batch ends. -/
def keep (files : FileStore) (h : Header) : Outcome → Except CommandError (Option Arrival) × FileStore
  | .file path => (.ok (some (.file path)), files)
  | .duplicate => (.ok (some (.duplicate h.filename)), files)
  | .endOfStream => (.ok none, files)
  | .inline content =>
    let (result, files) := keepInline files h.filename content
    (result.map fun dest => some (.inline dest content.size), files)

/-- Takes in one session of an inbox. -/
def step (a : Assembler MemoryStore) (i : Inbox) :
    Except CommandError (Option Arrival) × Assembler MemoryStore × Inbox :=
  match a.receive i with
  | (.error e, a, i) => (.error (.transfer e), a, i)
  | (.ok none, a, i) => (.ok none, a, i)
  | (.ok (some (_, .error e)), a, i) => (.error (.transfer e), a, i)
  | (.ok (some (h, .ok outcome)), a, i) =>
    let (result, files) := keep a.files h outcome
    (result, { a with files }, i)

/-- Takes in sessions, `fuel` of them at most, until the batch ends or one fails. -/
def run (a : Assembler MemoryStore) (i : Inbox) (acc : List Arrival) :
    Nat → Except CommandError Unit × List Arrival × Disk
  | 0 => (.ok (), acc.reverse, a.files.disk)
  | fuel + 1 =>
    match step a i with
    | (.error e, a, _) => (.error e, acc.reverse, a.files.disk)
    | (.ok none, a, _) => (.ok (), acc.reverse, a.files.disk)
    | (.ok (some arrival), a, i) => run a i (arrival :: acc) fuel

end Unpack

/-- Unpacks `input` into `dir`. Every session takes a byte at least, so there are no more of them than
bytes. What was unpacked before a failure stays. -/
def unpack (threshold owner : Nat) (d : Disk) (input dir : String) :
    Except CommandError Unit × List Arrival × Disk :=
  match FileStore.openAt d (Path.join dir "cache") (Path.join dir "files") owner with
  | (.error e, files) => (.error (.storage e), [], files.disk)
  | (.ok (), files) =>
    match files.disk.openSource input with
    | .error e => (.error (.openInput input e), [], files.disk)
    | .ok source => Unpack.run ⟨.empty, files, threshold⟩ (.new source) [] (source.bytes.size + 1)

end ChunkRelay
