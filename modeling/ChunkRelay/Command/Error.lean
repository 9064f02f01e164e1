import ChunkRelay.Text.Decimal
import ChunkRelay.Transfer.Chunk

/-! Why a command failed. -/
namespace ChunkRelay

inductive CommandError where
  | missingValue (option : String)
  | notNumber (option : String) (cause : Decimal.Fault)
  | file (cause : FileError)
  | header (cause : PolicyError)
  | transfer (cause : TransferError)
  | storage (cause : StorageError)
  | openInput (path : String) (cause : IoError)
  | create (path : String) (cause : IoError)
  | unusableName (name : String)
  | identity (cause : PacketError)
  | lostSecret (path : String) (cause : KeyError)

namespace CommandError

/-- What failed, then what that came from. -/
def causes : CommandError → List String
  | .missingValue o => [s!"{o} requires a value"]
  | .notNumber o e => [s!"{o} must be a number", e.message]
  | .file e => e.causes
  | .header e => ["invalid header", e.message]
  | .transfer e => e.causes
  | .storage e => e.causes
  | .openInput p e => [s!"failed to open {p}", e.message]
  | .create p e => [s!"failed to create {p}", e.message]
  | .unusableName n => [s!"unusable file name: {Quoted.quote n}"]
  | .identity e => ["failed to generate identity", e.message]
  | .lostSecret p e => [s!"key store at {p} did not keep the secret", e.message]

/-- A text whose lines after the first stand under the first one's start. -/
def indented (first rest text : String) : String := first ++ text.replace "\n" ("\n" ++ rest)

/-- Causes on lines of their own. Several are numbered from zero. -/
def causeLines : List String → List String
  | [] => []
  | [cause] => [indented "    " "    " cause]
  | l => l.zipIdx.map fun (cause, i) => indented (Decimal.aligned 5 i ++ ": ") "       " cause

/-- The text of a failure: what failed, and under it what that came from. -/
def text (e : CommandError) : String :=
  match e.causes with
  | [] => "Error: \n"
  | [head] => s!"Error: {head}\n"
  | head :: rest => s!"Error: {head}\n\nCaused by:\n" ++ String.join ((causeLines rest).map (· ++ "\n"))

end CommandError
end ChunkRelay
