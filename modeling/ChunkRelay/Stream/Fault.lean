/-! Why reading or writing outside the program failed. -/
namespace ChunkRelay

inductive IoError where
  | notFound
  | notDirectory
  | isDirectory
  | exists
  | nameTooLong
  | zeroInName
  | notText
  | other (text : String)
  deriving DecidableEq, Repr

def IoError.message : IoError → String
  | .notFound => "No such file or directory (os error 2)"
  | .notDirectory => "Not a directory (os error 20)"
  | .isDirectory => "Is a directory (os error 21)"
  | .exists => "File exists (os error 17)"
  | .nameTooLong => "File name too long (os error 36)"
  | .zeroInName => "file name contained an unexpected NUL byte"
  | .notText => "stream did not contain valid UTF-8"
  | .other text => text

end ChunkRelay
