/-! JSON objects whose members are all strings, as text. Reading takes every spelling of such an object,
writing gives one member a line. -/
namespace ChunkRelay
namespace JsonObject

def hexDigit (n : Nat) : Char := if n < 10 then Char.ofNat (48 + n) else Char.ofNat (87 + n)

def hexValue (c : Char) : Option Nat :=
  if c.isDigit then some (c.toNat - 48)
  else if 'a' ≤ c ∧ c ≤ 'f' then some (c.toNat - 87)
  else if 'A' ≤ c ∧ c ≤ 'F' then some (c.toNat - 55)
  else none

/-! Writing. -/

def escape (c : Char) : List Char :=
  match c with
  | '"' => ['\\', '"']
  | '\\' => ['\\', '\\']
  | '\x08' => ['\\', 'b']
  | '\x0c' => ['\\', 'f']
  | '\n' => ['\\', 'n']
  | '\r' => ['\\', 'r']
  | '\t' => ['\\', 't']
  | c => if c < ' ' then ['\\', 'u', '0', '0', hexDigit (c.toNat / 16), hexDigit (c.toNat % 16)] else [c]

def quoted (s : String) : List Char := '"' :: s.toList.flatMap escape ++ ['"']

def member (m : String × String) : List Char := quoted m.1 ++ [':', ' '] ++ quoted m.2

def members : List (String × String) → List Char
  | [] => []
  | [m] => ['\n', ' ', ' '] ++ member m ++ ['\n']
  | m :: r => ['\n', ' ', ' '] ++ member m ++ [','] ++ members r

def write (l : List (String × String)) : String := String.ofList ('\x7b' :: members l ++ ['\x7d'])

/-! Reading. -/

def isSpace (c : Char) : Bool := c = ' ' || c = '\n' || c = '\t' || c = '\r'

def skipSpace (s : List Char) : List Char := s.dropWhile isSpace

def hex4 (a b c d : Char) : Option Nat := do
  return ((← hexValue a) * 16 + (← hexValue b)) * 256 + ((← hexValue c) * 16 + (← hexValue d))

/-- The character of a single-letter escape. -/
def unescape : Char → Option Char
  | '"' => some '"'
  | '\\' => some '\\'
  | '/' => some '/'
  | 'b' => some '\x08'
  | 'f' => some '\x0c'
  | 'n' => some '\n'
  | 'r' => some '\r'
  | 't' => some '\t'
  | _ => none

/-- The character of a code unit that stands by itself. -/
def ofUnit (n : Nat) : Option Char := if 0xd800 ≤ n ∧ n ≤ 0xdfff then none else some (Char.ofNat n)

/-- The character of a pair of surrogates. -/
def ofPair (high low : Nat) : Option Char :=
  if (0xd800 ≤ high ∧ high ≤ 0xdbff) ∧ (0xdc00 ≤ low ∧ low ≤ 0xdfff) then
    some (Char.ofNat (0x10000 + (high - 0xd800) * 0x400 + (low - 0xdc00)))
  else none

/-- The one character at the front of a string's text, not its closing quote, and what follows it. -/
def character : List Char → Option (Char × List Char)
  | '\\' :: 'u' :: a :: b :: c :: d :: r =>
    match hex4 a b c d, r with
    | none, _ => none
    | some n, '\\' :: 'u' :: e :: f :: g :: h :: r' =>
      match ofUnit n with
      | some x => some (x, r)
      | none => ((hex4 e f g h).bind (ofPair n)).map (·, r')
    | some n, _ => (ofUnit n).map (·, r)
  | '\\' :: x :: r => (unescape x).map (·, r)
  | c :: r => if c < ' ' ∨ c = '\\' then none else some (c, r)
  | [] => none

/-- The rest of a string and what follows its closing quote. -/
def stringBody (acc : List Char) : Nat → List Char → Option (String × List Char)
  | _, '"' :: r => some (String.ofList acc.reverse, r)
  | 0, _ => none
  | fuel + 1, s =>
    match character s with
    | some (c, r) => stringBody (c :: acc) fuel r
    | none => none

/-- A string at the front of a text of no more than `bound` characters. -/
def string? (bound : Nat) (s : List Char) : Option (String × List Char) :=
  match s with
  | '"' :: r => stringBody [] bound r
  | _ => none

def member? (bound : Nat) (s : List Char) : Option ((String × String) × List Char) := do
  let (k, r) ← string? bound s
  match skipSpace r with
  | ':' :: r =>
    let (v, r) ← string? bound (skipSpace r)
    return ((k, v), skipSpace r)
  | _ => none

/-- Members separated by commas, up to the closing brace. -/
def members? (bound : Nat) (acc : List (String × String)) :
    Nat → List Char → Option (List (String × String) × List Char)
  | 0, _ => none
  | fuel + 1, s =>
    match member? bound s with
    | some (m, '\x7d' :: r) => some ((m :: acc).reverse, r)
    | some (m, ',' :: r) => members? bound (m :: acc) fuel (skipSpace r)
    | _ => none

def read? (text : String) : Option (List (String × String)) :=
  match skipSpace text.toList with
  | '\x7b' :: r =>
    match skipSpace r with
    | '\x7d' :: r => if skipSpace r = [] then some [] else none
    | s =>
      let length := s.length
      match members? length [] length s with
      | some (l, r) => if skipSpace r = [] then some l else none
      | none => none
  | _ => none

end JsonObject
end ChunkRelay
