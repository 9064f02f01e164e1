import ChunkRelay.Toml.Scalar
import ChunkRelay.Toml.Text

/-! TOML documents: values, and the lines that place them in tables. Readers are told a `bound` above the
length of the whole text, which no repetition on it exceeds. -/
namespace ChunkRelay
namespace Toml

/-- A reader of something at the front of a text. -/
abbrev Reader (α : Type) : Type := List Char → Option (α × List Char)

/-- Values parted by commas up to the closing bracket. A comma may follow the last one. -/
def elements (bound : Nat) (value : Reader Value) (acc : List Value) : Nat → Reader (List Value)
  | 0, _ => none
  | fuel + 1, s =>
    match skipLines s bound with
    | ']' :: r => some (acc.reverse, r)
    | s =>
      match value s with
      | none => none
      | some (v, r) =>
        match skipLines r bound with
        | ',' :: r => elements bound value (v :: acc) fuel r
        | ']' :: r => some ((v :: acc).reverse, r)
        | _ => none

/-- A key, an equals sign and a value. -/
def pair (bound : Nat) (value : Reader Value) (s : List Char) : Option ((List String × String × Value) × List Char) :=
  match key? bound s with
  | some (path, k, '=' :: r) => (value (skipBlanks r)).map fun (v, r) => ((path, k, v), r)
  | _ => none

/-- Pairs parted by commas up to the closing brace. No comma follows the last one. -/
def fields (bound : Nat) (value : Reader Value) (acc : Entries) : Nat → Reader Entries
  | 0, _ => none
  | fuel + 1, s =>
    match pair bound value s with
    | none => none
    | some ((path, k, v), r) =>
      match acc.addPair path k v, skipBlanks r with
      | some acc, ',' :: r => fields bound value acc fuel r
      | some acc, '\x7d' :: r => some (acc, r)
      | _, _ => none

/-- A value nested in fewer than `depth` others. -/
def value (bound depth : Nat) (s : List Char) : Option (Value × List Char) :=
  match depth, s with
  | 0, '[' :: _ => none
  | 0, '\x7b' :: _ => none
  | d + 1, '[' :: r => (elements bound (value bound d) [] bound r).map fun (l, r) => (.array l, r)
  | d + 1, '\x7b' :: r =>
    match skipBlanks r with
    | '\x7d' :: r => some (.table .inline [], r)
    | r => (fields bound (value bound d) [] bound r).map fun (es, r) => (.table .inline es, r)
  | _, '"' :: _ => (string? bound s).map fun (t, r) => (.string t, r)
  | _, '\'' :: _ => (string? bound s).map fun (t, r) => (.string t, r)
  | _, s => Scalar.read s

/-- One line: what it makes of the tables so far and of the path of the table that is open. -/
def step (bound : Nat) (root : Entries) (opened : List String) (s : List Char) :
    Option (Entries × List String × List Char) :=
  match skipBlanks s with
  | [] => some (root, opened, [])
  | '\n' :: r => some (root, opened, r)
  | '\r' :: '\n' :: r => some (root, opened, r)
  | '#' :: r => (lineEnd? ('#' :: r)).map fun r => (root, opened, r)
  | '[' :: '[' :: r =>
    match key? bound r with
    | some (path, k, ']' :: ']' :: r) => do
      return (← root.openElement path k, path ++ [k], ← lineEnd? r)
    | _ => none
  | '[' :: r =>
    match key? bound r with
    | some (path, k, ']' :: r) => do
      return (← root.openTable path k, path ++ [k], ← lineEnd? r)
    | _ => none
  | s =>
    match pair bound (value bound (maxDepth - 1)) s with
    | some ((path, k, v), r) => do
      return (← root.addTo opened path k v, opened, ← lineEnd? r)
    | none => none

/-- All lines; each takes at least one character. -/
def lines (bound : Nat) (root : Entries) (opened : List String) : Nat → List Char → Option Entries
  | _, [] => some root
  | 0, _ => none
  | fuel + 1, s =>
    match step bound root opened s with
    | some (root, opened, r) => lines bound root opened fuel r
    | none => none

/-- The tables of a document, or nothing where the text is not one. A byte order mark may come first. -/
def read? (text : String) : Option Entries :=
  let s := text.toList
  let s := if s.head? = some '\ufeff' then s.drop 1 else s
  let length := s.length
  lines (length + 1) [] [] length s

end Toml
end ChunkRelay
