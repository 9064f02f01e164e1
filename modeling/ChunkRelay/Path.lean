/-! Paths as text. Names are separated by slashes; repeated slashes count as one, and a dot that is not
the first name means nothing. -/
namespace ChunkRelay
namespace Path

/-- The text between slashes, empty text included. -/
def splitChars : List Char → List (List Char)
  | [] => [[]]
  | c :: r =>
    if c = '/' then [] :: splitChars r
    else match splitChars r with
      | [] => [[c]]
      | w :: ws => (c :: w) :: ws

def pieces (p : String) : List String := (splitChars p.toList).map String.ofList

/-- The steps of a walk along a path, dots among them. -/
def steps (p : String) : List String := (pieces p).filter (· ≠ "")

def isAbsolute (p : String) : Bool := p.startsWith "/"

/-- Pieces that no step of a walk corresponds to. -/
def isBlank (piece : String) : Bool := piece = "" || piece = "."

/-- The names of a path: the root first if the path starts there, else a leading dot if it has one. Two
paths are the same path when their names agree. -/
def names (p : String) : List String :=
  match pieces p with
  | [] => []
  | first :: rest =>
    let rest := rest.filter fun w => !isBlank w
    if isAbsolute p then "/" :: rest
    else if first = "" then rest
    else first :: rest

/-- Drops the blank pieces that end a path, of pieces in reverse. The first piece stays. -/
def trim : List String → List String
  | [] => []
  | [first] => [first]
  | w :: r => if isBlank w then trim r else w :: r

/-- Pieces of a path in reverse, without the blank ones that end it. -/
def trimmed (p : String) : List String := trim (pieces p).reverse

/-- The last name, unless the path ends in a dot, in two dots or at the root. -/
def fileName? (p : String) : Option String :=
  match trimmed p with
  | [] => none
  | w :: _ => if isBlank w || w = ".." then none else some w

/-- Text with these pieces in reverse, of a path that starts at the root or does not. -/
def ofReversed (absolute : Bool) (l : List String) : String :=
  if absolute ∧ l.length ≤ 1 then "/" else "/".intercalate l.reverse

/-- The path without its last name. -/
def parent? (p : String) : Option String :=
  match trimmed p with
  | [] => none
  | [w] => if w = "" then none else some ""
  | _ :: r => some (ofReversed (isAbsolute p) (trim r))

/-- A path read from the directory `p`. -/
def join (p q : String) : String :=
  if isAbsolute q then q
  else if p = "" || p.endsWith "/" then p ++ q
  else p ++ "/" ++ q

/-- The path with another last name, or with one more where it has no last name to replace. -/
def withFileName (p name : String) : String :=
  match fileName? p with
  | some _ => join ((parent? p).getD "") name
  | none => join p name

/-- What stands before and after the last dot of a name. A name that only starts with a dot, or has
none, has no extension. -/
def splitExtension (name : String) : String × Option String :=
  let back := name.toList.reverse
  let ext := back.takeWhile (· ≠ '.')
  match back.drop ext.length with
  | _ :: stem@(_ :: _) => (String.ofList stem.reverse, some (String.ofList ext.reverse))
  | _ => (name, none)

def extension? (p : String) : Option String := (fileName? p).bind fun name => (splitExtension name).2

/-- The path with an extension set behind the stem of its last name, and cut off there; a path without a
last name stays as it is. -/
def setExtension (p ext : String) : String :=
  match fileName? p, trimmed p with
  | some name, _ :: r => "/".intercalate ((splitExtension name).1 :: r).reverse ++ "." ++ ext
  | _, _ => p

/-- The path with another extension. The old one is first taken off the end of the text; if that leaves
two dots there is no last name any more. -/
def withExtension (p ext : String) : String :=
  let old := ((extension? p).getD "").length
  setExtension (String.ofList (p.toList.take (p.length - old))) ext

end Path
end ChunkRelay
