/-! Strings, keys, blanks and comments of TOML text. Each reader returns what follows what it has read. -/
namespace ChunkRelay
namespace Toml

def isBlank (c : Char) : Bool := c = ' ' || c = '\t'

def skipBlanks (s : List Char) : List Char := s.dropWhile isBlank

/-- Characters that stand for themselves: all but the control characters, of which the tab is allowed. -/
def isText (c : Char) : Bool := c = '\t' || (' ' ≤ c && c ≠ '\x7f')

/-- Passes over a line break. -/
def newline? : List Char → Option (List Char)
  | '\n' :: r => some r
  | '\r' :: '\n' :: r => some r
  | _ => none

/-- Passes over a comment, if there is one, to the end of its line. -/
def skipComment (s : List Char) : List Char :=
  match s with
  | '#' :: r => r.dropWhile isText
  | s => s

/-- Passes over what may end a line: blanks, a comment, and a line break unless the text ends. -/
def lineEnd? (s : List Char) : Option (List Char) :=
  match skipComment (skipBlanks s) with
  | [] => some []
  | s => newline? s

/-- Passes over blanks, comments and line breaks, `fuel` of them at most. -/
def skipLines (s : List Char) : Nat → List Char
  | 0 => s
  | fuel + 1 =>
    match skipComment (skipBlanks s) with
    | '\n' :: r => skipLines r fuel
    | '\r' :: '\n' :: r => skipLines r fuel
    | s => s

def hexValue (c : Char) : Option Nat :=
  if c.isDigit then some (c.toNat - 48)
  else if 'a' ≤ c ∧ c ≤ 'f' then some (c.toNat - 87)
  else if 'A' ≤ c ∧ c ≤ 'F' then some (c.toNat - 55)
  else none

/-- The character whose number `n` hexadecimal digits give. -/
def codePoint? (n : Nat) (s : List Char) : Option (Char × List Char) := do
  let ds := s.take n
  if ds.length < n then none
  else
    let v ← ds.foldlM (fun v c => (hexValue c).map (v * 16 + ·)) 0
    if v < 0xd800 ∨ (0xdfff < v ∧ v < 0x110000) then some (Char.ofNat v, s.drop n) else none

/-- The character of an escape, read after its backslash. -/
def escape? : List Char → Option (Char × List Char)
  | 'b' :: r => some ('\x08', r)
  | 't' :: r => some ('\t', r)
  | 'n' :: r => some ('\n', r)
  | 'f' :: r => some ('\x0c', r)
  | 'r' :: r => some ('\r', r)
  | '"' :: r => some ('"', r)
  | '\\' :: r => some ('\\', r)
  | 'u' :: r => codePoint? 4 r
  | 'U' :: r => codePoint? 8 r
  | _ => none

/-- The rest of a string on one line. With escapes it ends at a double quote, without at a single one. -/
def line (escapes : Bool) (acc : List Char) : Nat → List Char → Option (String × List Char)
  | 0, _ => none
  | fuel + 1, s =>
    match s with
    | [] => none
    | c :: r =>
      if c = (if escapes then '"' else '\'') then some (String.ofList acc.reverse, r)
      else if escapes ∧ c = '\\' then
        match escape? r with
        | some (c, r) => line escapes (c :: acc) fuel r
        | none => none
      else if isText c then line escapes (c :: acc) fuel r else none

/-- Whether a carriage return stands anywhere but before a line feed. -/
def hasBareReturn : List Char → Bool
  | '\r' :: '\n' :: r => hasBareReturn r
  | '\r' :: _ => true
  | _ :: r => hasBareReturn r
  | [] => false

def isGap (c : Char) : Bool := isBlank c || c = '\n' || c = '\r'

/-- What follows a backslash that ends a line: it takes with it all blanks and line breaks, among which no
bare carriage return may be. -/
def continuation? (s : List Char) : Option (List Char) :=
  (newline? (skipBlanks s)).bind fun r =>
    if hasBareReturn (r.takeWhile isGap) then none else some (r.dropWhile isGap)

/-- The rest of a string over several lines, up to three quotes, before which up to two more belong to
it. Line breaks are read as line feeds. -/
def paragraph (escapes : Bool) (acc : List Char) : Nat → List Char → Option (String × List Char)
  | 0, _ => none
  | fuel + 1, s =>
    let quote := if escapes then '"' else '\''
    match s with
    | [] => none
    | '\n' :: r => paragraph escapes ('\n' :: acc) fuel r
    | '\r' :: '\n' :: r => paragraph escapes ('\n' :: acc) fuel r
    | c :: r =>
      if c = quote then
        let run := (s.takeWhile (· = quote)).length
        if run < 3 then paragraph escapes (c :: acc) fuel r
        else if run ≤ 5 then some (String.ofList ((List.replicate (run - 3) quote ++ acc).reverse), s.drop run)
        else none
      else if escapes ∧ c = '\\' then
        match continuation? r with
        | some r => paragraph escapes acc fuel r
        | none =>
          match escape? r with
          | some (c, r) => paragraph escapes (c :: acc) fuel r
          | none => none
      else if isText c then paragraph escapes (c :: acc) fuel r else none

/-- A line break right after the opening quotes is no part of the string. -/
def opened (s : List Char) : List Char := (newline? s).getD s

/-- A string at the front of a text of no more than `bound` characters. -/
def string? (bound : Nat) (s : List Char) : Option (String × List Char) :=
  match s with
  | '"' :: '"' :: '"' :: r => paragraph true [] bound (opened r)
  | '\'' :: '\'' :: '\'' :: r => paragraph false [] bound (opened r)
  | '"' :: r => line true [] bound r
  | '\'' :: r => line false [] bound r
  | _ => none

/-! Keys. -/

def isBare (c : Char) : Bool := c.isAlphanum || c = '_' || c = '-'

/-- A name at the front of a text of no more than `bound` characters. -/
def simpleKey? (bound : Nat) (s : List Char) : Option (String × List Char) :=
  match s with
  | '"' :: r => line true [] bound r
  | '\'' :: r => line false [] bound r
  | s =>
    let w := s.takeWhile isBare
    if w.isEmpty then none else some (String.ofList w, s.dropWhile isBare)

/-- No key, and no nesting of values, is as deep as this. -/
def maxDepth : Nat := 80

/-- Names parted by dots, with blanks around them: the names before the last, the last, and the rest. -/
def keyFrom (bound : Nat) (path : List String) : Nat → List Char → Option (List String × String × List Char)
  | 0, _ => none
  | fuel + 1, s =>
    match simpleKey? bound (skipBlanks s) with
    | none => none
    | some (k, r) =>
      match skipBlanks r with
      | '.' :: r => keyFrom bound (k :: path) fuel r
      | r => some (path.reverse, k, r)

def key? (bound : Nat) (s : List Char) : Option (List String × String × List Char) :=
  keyFrom bound [] (maxDepth - 1) s

end Toml
end ChunkRelay
