import ChunkRelay.Command.Error
import ChunkRelay.Path

/-! Command lines: options with values, which may stand anywhere, and the words around them that name a
command and what it works on. -/
namespace ChunkRelay

structure Options where
  blockSize : Option UInt32
  application : Option String
  mime : Option String
  words : List String
  deriving DecidableEq, Repr

namespace Options

def empty : Options := ⟨none, none, none, []⟩

/-- Reads on after what `o` holds. Of an option that is given twice the last value counts. -/
def readFrom (o : Options) : List String → Except CommandError Options
  | [] => .ok o
  | "--block-size" :: [] => .error (.missingValue "--block-size")
  | "--block-size" :: v :: r =>
    match Decimal.uint32 v with
    | .error e => .error (.notNumber "--block-size" e)
    | .ok n => readFrom { o with blockSize := some (UInt32.ofNat n) } r
  | "--app" :: [] => .error (.missingValue "--app")
  | "--app" :: v :: r => readFrom { o with application := some v } r
  | "--mime" :: [] => .error (.missingValue "--mime")
  | "--mime" :: v :: r => readFrom { o with mime := some v } r
  | w :: r => readFrom { o with words := o.words ++ [w] } r

def read (args : List String) : Except CommandError Options := empty.readFrom args

end Options

inductive Command where
  | hash (file : String)
  | pack (file out : String)
  | unpack (input dir : String)
  | identity (name keyPath : String)
  | usage
  | unknown (words : List String)
  deriving DecidableEq, Repr

def Command.ofWords : List String → Command
  | ["hash", file] => .hash file
  | ["pack", file, out] => .pack file out
  | ["unpack", input, dir] => .unpack input dir
  | ["identity", name, keyPath] => .identity name keyPath
  | [] | ["help"] | ["--help"] | ["-h"] => .usage
  | words => .unknown words

/-- The paths that a command names, and those of the files that it makes beside them. -/
def Command.paths : Command → List String
  | .hash file => [file]
  | .pack file out => [file, out]
  | .unpack input dir => [input, dir]
  | .identity _ keyPath => [keyPath, Path.withExtension keyPath "tmp"]
  | .usage | .unknown _ => []

end ChunkRelay
