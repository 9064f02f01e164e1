import ChunkRelay.Toml.Text

/-! Writing TOML strings. A string is quoted in the first style that shows it as it is, and with escapes
where none does. -/
namespace ChunkRelay
namespace Toml
namespace Printer

/-- How a string is quoted: between double quotes, where escapes count, or between single quotes, where
none do; and between three quotes in a row if it may run over several lines. -/
structure Style where
  escapes : Bool
  lines : Bool

namespace Style

def quote (st : Style) : Char := if st.escapes then '"' else '\''

/-- As many quotes in a row do not end the string. -/
def bareQuotes (st : Style) : Nat := if st.lines then 2 else 0

def delimiter (st : Style) : List Char := List.replicate (if st.lines then 3 else 1) st.quote

/-- The styles in order of preference. -/
def all : List Style := [⟨true, false⟩, ⟨false, false⟩, ⟨true, true⟩, ⟨false, true⟩]

end Style

def isControl (c : Char) : Bool := c < ' ' || c = '\x7f'

/-- The longest run of a quote in a text, of which `run` stand right before it. -/
def quoteRun (q : Char) (run : Nat) : List Char → Nat
  | [] => run
  | c :: r => if c = q then quoteRun q (run + 1) r else max run (quoteRun q 0 r)

/-- Characters that need no escape in a style, its quote apart. -/
def isPlain (st : Style) (c : Char) : Bool :=
  match c with
  | '\t' => true
  | '\n' => st.lines
  | '\\' => !st.escapes
  | c => !isControl c

/-- Whether a style shows a text as it is. -/
def shows (st : Style) (s : List Char) : Bool := s.all (isPlain st) && quoteRun st.quote 0 s ≤ st.bareQuotes

def styleOf (s : List Char) : Style :=
  (Style.all.find? (shows · s)).getD ⟨true, s.contains '\n'⟩

/-- A code point in four capital hexadecimal digits. -/
def hex4 (n : Nat) : List Char :=
  let ds := (Nat.toDigits 16 n).map Char.toUpper
  List.replicate (4 - ds.length) '0' ++ ds

/-- A character where escapes count. Over several lines a line break stands for itself. -/
def escape (lines : Bool) (c : Char) : List Char :=
  match c with
  | '\x08' => ['\\', 'b']
  | '\t' => ['\\', 't']
  | '\n' => if lines then ['\n'] else ['\\', 'n']
  | '\x0c' => ['\\', 'f']
  | '\r' => ['\\', 'r']
  | '\\' => ['\\', '\\']
  | c => if isControl c then '\\' :: 'u' :: hex4 c.toNat else [c]

/-- Text where escapes count, after `run` double quotes in a row. The quote that would end the string is
escaped, which ends the run. -/
def escaped (st : Style) (run : Nat) : List Char → List Char
  | [] => []
  | c :: r =>
    if c = '"' then
      if run < st.bareQuotes then '"' :: escaped st (run + 1) r else '\\' :: '"' :: escaped st 0 r
    else escape st.lines c ++ escaped st 0 r

/-- A string of several lines opens with a line break, which is no part of it. -/
def chars (s : List Char) : List Char :=
  let st := styleOf s
  let opening := if st.lines && s.contains '\n' then ['\n'] else []
  st.delimiter ++ opening ++ (if st.escapes then escaped st 0 s else s) ++ st.delimiter

def string (s : String) : String := String.ofList (chars s.toList)

end Printer
end Toml
end ChunkRelay
