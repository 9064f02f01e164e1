import ChunkRelay.Command

/-! The program. What a command may touch is read from the file system into a tree, the command runs on
the tree, and what it changed there is written back. -/
namespace ChunkRelay
namespace Program

def pathOf (p : Place) : String := "/" ++ "/".intercalate p.names.toList

/-- Whether the file system can have a file at a place. -/
def isPossible (p : Place) : Bool :=
  p.names.all fun w => w.utf8ByteSize ≤ Disk.maxName && !w.contains '\x00'

/-- What is at a place. -/
def probe (p : Place) : IO (Option Entry) := do
  if !isPossible p then return none
  try
    let content ← IO.FS.readBinFile (pathOf p)
    return some (.file content Disk.defaultMode)
  catch e =>
    match e with
    | .noFileOrDirectory .. => return none
    | .inappropriateType _ code _ => return (if code = 21 then some .directory else none)
    | e => throw e

/-- Adds to a tree what is at these places. -/
def survey (d : Disk) (ps : List Place) : IO Disk :=
  ps.foldlM (fun d p => do
    match ← probe p with
    | some e => return d.set p e
    | none => return d) d

/-- Runs the program on what is known of the file system. Places that it would change and that have not
been looked at yet are looked at first. -/
partial def runFrom (host : Host) (args : List String) (seen : List Place) : IO (Report × Disk × Disk) := do
  let (report, d) := Command.runArgs host args
  let unseen := (host.disk.differences d).filter fun p => !seen.contains p
  if unseen.isEmpty then return (report, host.disk, d)
  runFrom { host with disk := ← survey host.disk unseen } args (unseen ++ seen)

def access (n : Nat) : IO.AccessRight where
  read := n / 4 % 2 = 1
  write := n / 2 % 2 = 1
  execution := n % 2 = 1

def rights (mode : Nat) : IO.FileRight where
  user := access (mode / 64)
  group := access (mode / 8)
  other := access mode

/-- Brings a place in line with the tree. A file that not all may read is closed to them before it is
filled. -/
def restore (new : Disk) (p : Place) : IO Unit :=
  match new.entry? p with
  | none => IO.FS.removeFile (pathOf p)
  | some .directory => IO.FS.createDirAll (pathOf p)
  | some (.file content mode) => do
    if mode ≠ Disk.defaultMode then
      IO.FS.writeBinFile (pathOf p) ByteArray.empty
      IO.setAccessRights (pathOf p) (rights mode)
    IO.FS.writeBinFile (pathOf p) content

def readEnvironment : IO Environment := do
  let values ← Environment.variableNames.mapM fun k => do return (k, ← IO.getEnv k)
  return fun k => (values.lookup k).join

/-- The paths that a run names: the settings file and what the command line says. -/
def pathsOf (env : Environment) (args : List String) : List String :=
  match Options.read args with
  | .error _ => []
  | .ok o => Settings.filePath env :: (Command.ofWords o.words).paths

def run (args : List String) : IO UInt32 := do
  let env ← readEnvironment
  let workDir : Place := ⟨(Path.steps (toString (← IO.currentDir))).toArray⟩
  let seed ← IO.getRandomBytes 32
  let owner := (← IO.getRandomBytes 4).toList.foldl (fun n b => n * 256 + b.toNat) 0
  let bare := Disk.ofWorkDir workDir
  let places := ((pathsOf env args).flatMap bare.placesOn).filter (· ≠ .root)
  let disk ← survey bare places
  let (report, old, new) ← runFrom ⟨env, disk, seed, owner⟩ args places
  (old.differences new).forM (restore new)
  IO.print report.stdout
  IO.eprint report.stderr
  return report.exit

end Program
end ChunkRelay

def main (args : List String) : IO UInt32 := ChunkRelay.Program.run args
