import ChunkRelay.Disk
import ChunkRelay.Packet.Policy
import ChunkRelay.Text.Decimal
import ChunkRelay.Toml.Document
import ChunkRelay.Toml.Printer

/-! Settings of a node. Each comes from the environment, else from the settings file, else from a
default that depends on the environment alone. -/
namespace ChunkRelay

/-- The environment: values of variables by name. -/
abbrev Environment : Type := String → Option String

namespace Environment

/-- The variables that settings come from. -/
def variableNames : List String := [
  "HOME", "XDG_CONFIG_HOME", "XDG_DATA_HOME", "SCATTER_CONFIG", "SCATTER_TRANSFER__BLOCK_SIZE",
  "SCATTER_TRANSFER__INLINE_THRESHOLD", "SCATTER_STORAGE__CACHE_DIR"]

def home (env : Environment) : String := (env "HOME").getD "/tmp"

def configDir (env : Environment) : String :=
  Path.join ((env "XDG_CONFIG_HOME").getD (Path.join env.home ".config")) "scatter"

def dataDir (env : Environment) : String :=
  Path.join ((env "XDG_DATA_HOME").getD (Path.join (Path.join env.home ".local") "share")) "scatter"

end Environment

structure Settings where
  /-- Where files from peers are kept. -/
  cacheDir : String
  /-- Where files that the user keeps are put. -/
  userDir : String
  /-- Where secret keys are kept. -/
  keyPath : String
  /-- Chunk size of what is sent. -/
  blockSize : UInt32
  /-- The longest payload that is kept inline. -/
  threshold : Nat
  deriving DecidableEq, Repr

inductive SettingsError where
  | read (path : String) (cause : IoError)
  | parse (path : String)
  | write (path : String) (cause : IoError)
  | invalid (key value : String)
  deriving DecidableEq, Repr

def SettingsError.message : SettingsError → String
  | .read p e => s!"failed to read {p}: {e.message}"
  | .parse p => s!"failed to parse {p}"
  | .write p e => s!"failed to write {p}: {e.message}"
  | .invalid k v => s!"invalid value for {k}: {Quoted.quote v}"

/-- What kind of failure it is, in one word. -/
def SettingsError.name : SettingsError → String
  | .read .. => "ReadFailed"
  | .parse _ => "ParseFailed"
  | .write .. => "WriteFailed"
  | .invalid .. => "InvalidValue"

namespace Settings

def defaults (env : Environment) : Settings where
  cacheDir := Path.join env.dataDir "cache"
  userDir := Path.join env.dataDir "files"
  keyPath := Path.join env.configDir "keys.json"
  blockSize := 64 * 1024
  threshold := 512 * 1024

/-- Where the settings file lies. -/
def filePath (env : Environment) : String := (env "SCATTER_CONFIG").getD (Path.join env.configDir "config.toml")

/-- A block size must be positive and leave its packets room in a frame. -/
def validate (s : Settings) : Except SettingsError Unit :=
  if s.blockSize = 0 ∨ maxBlockSize < s.blockSize then .error (.invalid "transfer.block_size" (toString s.blockSize))
  else .ok ()

/-! What a settings file gives. -/

/-- Settings of which some are given. -/
structure Given where
  cacheDir : Option String
  userDir : Option String
  keyPath : Option String
  blockSize : Option UInt32
  threshold : Option Nat
  deriving DecidableEq, Repr

/-- What is given, and the rest from `s`. -/
def Given.over (g : Given) (s : Settings) : Settings where
  cacheDir := g.cacheDir.getD s.cacheDir
  userDir := g.userDir.getD s.userDir
  keyPath := g.keyPath.getD s.keyPath
  blockSize := g.blockSize.getD s.blockSize
  threshold := g.threshold.getD s.threshold

/-- The values of a group's keys, by name or by position. A date stands for a group with no values. -/
def group? (keys : List String) : Option Toml.Value → Option (List (Option Toml.Value))
  | none | some .datetime => some (keys.map fun _ => none)
  | some (.table _ es) => some (keys.map fun k => es.lookup k)
  | some (.array vs) => some ((List.range keys.length).map fun i => vs[i]?)
  | some _ => none

/-- A value that may be missing but must not be of the wrong kind. -/
def optional {α : Type} (f : Toml.Value → Option α) : Option Toml.Value → Option (Option α)
  | none => some none
  | some v => (f v).map some

def text? : Toml.Value → Option String
  | .string s => some s
  | _ => none

/-- A whole number from zero up to a bound. -/
def natural? (bound : Nat) : Toml.Value → Option Nat
  | .integer n => if 0 ≤ n ∧ n < bound then some n.toNat else none
  | _ => none

/-- What the values of both groups give. Keys and groups of other names mean nothing. -/
def Given.ofEntries? (es : Toml.Entries) : Option Given := do
  let storage ← group? ["cache_dir", "user_dir", "keystore_path"] (es.lookup "storage")
  let transfer ← group? ["block_size", "inline_threshold"] (es.lookup "transfer")
  match storage, transfer with
  | [cacheDir, userDir, keyPath], [blockSize, threshold] =>
    return {
      cacheDir := ← optional text? cacheDir
      userDir := ← optional text? userDir
      keyPath := ← optional text? keyPath
      blockSize := ← optional (fun v => (natural? (Nat.pow 2 32) v).map UInt32.ofNat) blockSize
      threshold := ← optional (natural? (Nat.pow 2 64)) threshold }
  | _, _ => none

def Given.ofText? (text : String) : Option Given := (Toml.read? text).bind ofEntries?

def toText (s : Settings) : String :=
  s!"[storage]\ncache_dir = {Toml.Printer.string s.cacheDir}\nuser_dir = {Toml.Printer.string s.userDir}\n" ++
  s!"keystore_path = {Toml.Printer.string s.keyPath}\n\n" ++
  s!"[transfer]\nblock_size = {s.blockSize}\ninline_threshold = {s.threshold}\n"

/-! Loading and saving. -/

/-- Settings from a file, or the defaults where there is none. -/
def loadFile (env : Environment) (d : Disk) (path : String) : Except SettingsError Settings :=
  if d.exists? path then
    match d.readText path with
    | .error e => .error (.read path e)
    | .ok text =>
      match Given.ofText? text with
      | none => .error (.parse path)
      | some g =>
        let s := g.over (defaults env)
        s.validate.map fun () => s
  else .ok (defaults env)

/-- Takes from `vars` what they set. What was taken before a bad value stays. -/
def override (s : Settings) (vars : Environment) : Except SettingsError Unit × Settings :=
  let blockSize := "SCATTER_TRANSFER__BLOCK_SIZE"
  let threshold := "SCATTER_TRANSFER__INLINE_THRESHOLD"
  match (vars blockSize).map fun v => (v, Decimal.uint32 v) with
  | some (v, .error _) => (.error (.invalid blockSize v), s)
  | size =>
    let s := match size with
      | some (_, .ok n) => { s with blockSize := UInt32.ofNat n }
      | _ => s
    match (vars threshold).map fun v => (v, Decimal.uint64 v) with
    | some (v, .error _) => (.error (.invalid threshold v), s)
    | limit =>
      let s := match limit with
        | some (_, .ok n) => { s with threshold := n }
        | _ => s
      let s := { s with cacheDir := (vars "SCATTER_STORAGE__CACHE_DIR").getD s.cacheDir }
      (s.validate, s)

def load (env : Environment) (d : Disk) : Except SettingsError Settings :=
  match loadFile env d (filePath env) with
  | .error e => .error e
  | .ok s =>
    let (result, s) := s.override env
    result.map fun () => s

/-- Writes the defaults to a file, unless something is there. Directories made for it stay where that
fails. -/
def writeDefaults (env : Environment) (d : Disk) (path : String) : Except SettingsError Unit × Disk :=
  if d.exists? path then (.ok (), d)
  else
    let (made, d) := match Path.parent? path with
      | some parent => d.makeDirectories parent
      | none => (.ok (), d)
    match made with
    | .error e => (.error (.write path e), d)
    | .ok () =>
      match d.write path (defaults env).toText.toUTF8 with
      | .error e => (.error (.write path e), d)
      | .ok d => (.ok (), d)

/-- The settings that commands use: the file is made where it is missing, and the defaults stand in
where it cannot be used. -/
def prepare (env : Environment) (d : Disk) : Settings × Disk :=
  let (_, d) := writeDefaults env d (filePath env)
  (((load env d).toOption).getD (defaults env), d)

end Settings
end ChunkRelay
