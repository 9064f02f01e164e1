import ChunkRelay.Toml.Value

/-! Numbers, dates, times and truth values, each read from the text that it takes up. -/
namespace ChunkRelay
namespace Toml
namespace Scalar

/-- The digits of a number whose digits may be set apart by single underscores. -/
def ungroup (isDigit : Char → Bool) : List Char → Option (List Char)
  | [] => none
  | [c] => if isDigit c then some [c] else none
  | c :: '_' :: r => if isDigit c then (ungroup isDigit r).map (c :: ·) else none
  | c :: r => if isDigit c then (ungroup isDigit r).map (c :: ·) else none

def digitValue (c : Char) : Nat :=
  if c.isDigit then c.toNat - 48 else if 'a' ≤ c then c.toNat - 87 else c.toNat - 55

def isDigitOf (base : Nat) (c : Char) : Bool :=
  (c.isDigit || ('a' ≤ c && c ≤ 'f') || ('A' ≤ c && c ≤ 'F')) && digitValue c < base

/-- Numbers from here on are of no use, and count as this one. -/
def limit : Nat := 18446744073709551616

/-- The value of digits, or the limit if it is larger. -/
def valueOf (base : Nat) (ds : List Char) : Nat :=
  ds.foldl (fun n c => min limit (n * base + digitValue c)) 0

def number? (base : Nat) (s : List Char) : Option Nat := (ungroup (isDigitOf base) s).map (valueOf base)

/-- The digits of a decimal number, which has no leading zeros. -/
def decimalDigits? : List Char → Option (List Char)
  | ['0'] => some ['0']
  | '0' :: _ => none
  | s => ungroup Char.isDigit s

/-- The sign of a number, and what follows it. -/
def sign : List Char → Bool × List Char
  | '-' :: r => (true, r)
  | '+' :: r => (false, r)
  | r => (false, r)

/-- Integers are those of 64 bits. -/
def bounded (n : Int) : Option Int := if -9223372036854775808 ≤ n ∧ n < 9223372036854775808 then some n else none

def integer? (s : List Char) : Option Int :=
  match s with
  | '0' :: 'x' :: r => (number? 16 r).bind fun n => bounded n
  | '0' :: 'o' :: r => (number? 8 r).bind fun n => bounded n
  | '0' :: 'b' :: r => (number? 2 r).bind fun n => bounded n
  | s =>
    let (negative, r) := sign s
    (decimalDigits? r).bind fun ds => bounded (if negative then -(valueOf 10 ds : Int) else valueOf 10 ds)

/-! Floats. -/

/-- The least number that rounds to infinity: half a step above the largest float. -/
def floatBound : Nat := Nat.pow 2 1024 - Nat.pow 2 970

/-- How many digits the bound has. -/
def boundLength : Nat := 309

/-- The value of a short row of digits. -/
def natOf (ds : List Char) : Nat := ds.foldl (fun n c => n * 10 + digitValue c) 0

/-- Whether the digits, as a whole number, times `10 ^ e` round to infinity. Where they have as many places
before the point as the bound, these places decide. -/
def overflows (ds : List Char) (e : Int) : Bool :=
  let ds := ds.dropWhile (· = '0')
  let places : Int := ds.length + e
  if ds.isEmpty || places < boundLength then false
  else if places > boundLength then true
  else floatBound ≤ natOf ((ds.rightpad boundLength '0').take boundLength)

/-- The parts of a text before and after the first character that `p` holds of. -/
def cut (p : Char → Bool) (s : List Char) : List Char × Option (List Char) :=
  (s.takeWhile fun c => !p c, match s.dropWhile fun c => !p c with
    | [] => none
    | _ :: r => some r)

/-- An exponent that has come to this takes no more digits. -/
def exponentBound : Nat := 65536

/-- The value of the digits of an exponent, up to the one that brings it to the bound. -/
def exponentValue (ds : List Char) : Nat :=
  ds.foldl (fun n c => if n < exponentBound then n * 10 + digitValue c else n) 0

/-- The exponent of a float; no exponent counts as zero. -/
def exponent? : Option (List Char) → Option Int
  | none => some 0
  | some s =>
    let (negative, r) := sign s
    (ungroup Char.isDigit r).map fun ds => if negative then -(exponentValue ds : Int) else exponentValue ds

/-- The digits after the point. -/
def fraction? : Option (List Char) → Option (List Char)
  | none => some []
  | some s => ungroup Char.isDigit s

/-- Whether a text is a float. One that rounds to positive infinity is refused, unlike the name of it. -/
def isFloat (s : List Char) : Bool :=
  let (negative, r) := sign s
  if r = "inf".toList ∨ r = "nan".toList then true
  else
    let (mantissa, e) := cut (fun c => c = 'e' || c = 'E') r
    let (whole, frac) := cut (· = '.') mantissa
    match decimalDigits? whole, fraction? frac, exponent? e with
    | some w, some f, some n =>
      (e.isSome || frac.isSome) && (negative || !overflows (w ++ f) (n - f.length))
    | _, _, _ => false

/-! Dates and times. -/

/-- The number that exactly `n` digits at the front of a text make, if it lies in a range. -/
def field? (n lo hi : Nat) (s : List Char) : Option (Nat × List Char) :=
  let ds := s.take n
  let v := valueOf 10 ds
  if ds.length = n ∧ ds.all Char.isDigit ∧ lo ≤ v ∧ v ≤ hi then some (v, s.drop n) else none

/-- Passes over a character that must be there. -/
def expect (c : Char) : List Char → Option (List Char)
  | x :: r => if x = c then some r else none
  | [] => none

def daysIn (year month : Nat) : Nat :=
  if month = 2 then (if year % 4 = 0 ∧ (year % 100 ≠ 0 ∨ year % 400 = 0) then 29 else 28)
  else if month = 4 ∨ month = 6 ∨ month = 9 ∨ month = 11 then 30 else 31

/-- A date at the front of a text, and what follows it. -/
def date? (s : List Char) : Option (List Char) := do
  let (year, s) ← field? 4 0 9999 s
  let (month, s) ← field? 2 1 12 (← expect '-' s)
  let (_, s) ← field? 2 1 (daysIn year month) (← expect '-' s)
  return s

/-- What follows a fraction of a second, if there is one. -/
def afterFraction : List Char → Option (List Char)
  | '.' :: r => if (r.takeWhile Char.isDigit).isEmpty then none else some (r.dropWhile Char.isDigit)
  | r => some r

/-- A time at the front of a text, and what follows it. -/
def time? (s : List Char) : Option (List Char) := do
  let (_, s) ← field? 2 0 23 s
  let (_, s) ← field? 2 0 59 (← expect ':' s)
  let (_, s) ← field? 2 0 60 (← expect ':' s)
  afterFraction s

def isOffset (s : List Char) : Bool :=
  match s with
  | [] | ['Z'] | ['z'] => true
  | c :: s => (c = '+' || c = '-') && ((do
      let (_, s) ← field? 2 0 23 s
      let (_, s) ← field? 2 0 59 (← expect ':' s)
      return s) == some [])

/-- A time, perhaps with its distance from universal time. -/
def isClock (s : List Char) : Bool := (time? s).any isOffset

def isDatetime (s : List Char) : Bool :=
  match date? s with
  | some [] => true
  | some (c :: r) => (c = 'T' || c = 't') && isClock r
  | none => time? s == some []

def ofText (s : List Char) : Option Value :=
  if s = "true".toList then some (.boolean true)
  else if s = "false".toList then some (.boolean false)
  else if isDatetime s then some .datetime
  else if isFloat s then some .float
  else (integer? s).map .integer

/-- Characters that scalars are made of. -/
def isPart (c : Char) : Bool := c.isAlphanum || c = '+' || c = '-' || c = '_' || c = '.' || c = ':'

/-- What follows the time after a date and a blank, or all of `s` where there is none. -/
def afterClock (s : List Char) : List Char :=
  match s with
  | ' ' :: r => if isClock (r.takeWhile isPart) then r.dropWhile isPart else s
  | _ => s

/-- A scalar at the front of a text, and what follows it. A blank may part a date from its time. -/
def read (s : List Char) : Option (Value × List Char) :=
  let word := s.takeWhile isPart
  let rest := s.dropWhile isPart
  (ofText word).map fun v => (v, if date? word = some [] then afterClock rest else rest)

end Scalar
end Toml
end ChunkRelay
