import ChunkRelay.Stream.Fault
import ChunkRelay.Text.Quoted

/-! Why a file could not be stored, read or removed. -/
namespace ChunkRelay

inductive StorageError where
  | makeDirectory (path : String) (cause : IoError)
  | createPart (path : String) (cause : IoError)
  | link (part target : String) (cause : IoError)
  | stat (path : String) (cause : IoError)
  | openFile (path : String) (cause : IoError)
  | delete (path : String) (cause : IoError)
  | create (path : String) (cause : IoError)
  | copy (path : String) (cause : IoError)
  | unusableName (name : String)
  deriving DecidableEq, Repr

namespace StorageError

/-- What was being done, then why it failed where that is known. -/
def causes : StorageError → List String
  | .makeDirectory p e => [s!"failed to create directory: {p}", e.message]
  | .createPart p e => [s!"failed to create part file: {p}", e.message]
  | .link p t e => [s!"failed to link {p} to {t}", e.message]
  | .stat p e => [s!"failed to stat {p}", e.message]
  | .openFile p e => [s!"failed to open {p}", e.message]
  | .delete p e => [s!"failed to delete {p}", e.message]
  | .create p e => [s!"failed to create {p}", e.message]
  | .copy p e => [s!"failed to copy into {p}", e.message]
  | .unusableName n => [s!"not a usable file name: {Quoted.quote n}"]

def message (e : StorageError) : String := ": ".intercalate e.causes

end StorageError
end ChunkRelay
