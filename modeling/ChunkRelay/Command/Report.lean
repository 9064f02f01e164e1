import ChunkRelay.Command.Pack
import ChunkRelay.Command.Unpack
import ChunkRelay.KeyRing

/-! What commands print. -/
namespace ChunkRelay

/-- What a program run shows: its exit code and the text on both outputs. -/
structure Report where
  exit : UInt32
  stdout : String
  stderr : String
  deriving DecidableEq, Repr

namespace Report

def ofLines (lines : List String) : String := String.join (lines.map (· ++ "\n"))

/-- Lines on standard output, then the failure if there is one. -/
def ofResult (lines : List String) : Except CommandError Unit → Report
  | .ok () => ⟨0, ofLines lines, ""⟩
  | .error e => ⟨1, ofLines lines, e.text⟩

def usageLines : List String := [
  "Usage: scatter-ctl <command> [options]",
  "",
  "Commands:",
  "  hash <file> [--block-size N]              Print the chunk hash list and content key",
  "  pack <file> <out> [--app A] [--mime M]    Write a file as a framed session batch",
  "  unpack <in> <dir>                         Verify and store every session in a batch",
  "  identity <name> <keystore.json>           Generate a signed identity",
  "",
  "Environment:",
  "  SCATTER_CONFIG    Config file path (default: $XDG_CONFIG_HOME/scatter/config.toml)",
  "  RUST_LOG          Log filter, e.g. scatter_services=debug"]

def usage : Report := ⟨0, ofLines usageLines, ""⟩

def unknown (words : List String) : Report :=
  ⟨1, ofLines usageLines, "Unknown command: " ++ " ".intercalate words ++ "\n\n"⟩

def rule : String := String.ofList (List.replicate 39 '═')

def titled (title : String) : List String := [rule, "  " ++ title, rule]

/-- The hashes of a file's chunks, numbered, below what is common to them. -/
def hashLines (file : String) (blockSize : UInt32) (hashes : List Hash) : List String :=
  titled file ++ [
    s!"  Block size  : {blockSize} bytes",
    s!"  Chunks      : {hashes.length}",
    s!"  Content key : {(Hash.contentKey hashes).toHex}"] ++
  if hashes.isEmpty then []
  else "" :: hashes.zipIdx.map fun (h, i) => s!"  {Decimal.aligned 6 i}  {h.toHex}"

def packLines (file out : String) (p : Packed) : List String :=
  let kept := if p.toDisk then "on disk" else "inline"
  [s!"Packed {file} ({p.chunks} chunks, stored {kept}) → {out}", s!"  content key : {p.contentKey.toHex}"]

def arrivalLine : Arrival → String
  | .file path => s!"  file      {path}"
  | .inline path size => s!"  inline    {path} ({size} bytes)"
  | .duplicate name => s!"  duplicate {name}"

/-- One line for each session, and a closing one where all went well. -/
def unpackLines (dir : String) (arrivals : List Arrival) (complete : Bool) : List String :=
  arrivals.map arrivalLine ++
    if complete then [s!"Unpacked {arrivals.length} session(s) into {dir}"] else []

def identityLines (i : Identity) (keyPath : String) : List String :=
  let valid := if i.verify i.publicKey then "valid" else "INVALID"
  titled s!"Identity: {i.name}" ++ [
    s!"  Fingerprint : {i.fingerprint}",
    s!"  Public key  : {Base64.encode i.publicKey}",
    s!"  Signature   : {valid}",
    s!"  Key store   : {keyPath}"]

end Report
end ChunkRelay
