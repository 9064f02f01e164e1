/-! Decimal numbers. Reading takes an unsigned number below a bound: one optional plus sign, then ASCII
digits. -/
namespace ChunkRelay
namespace Decimal

inductive Fault where
  | empty | digit | overflow
  deriving DecidableEq, Repr

def Fault.message : Fault → String
  | .empty => "cannot parse integer from empty string"
  | .digit => "invalid digit found in string"
  | .overflow => "number too large to fit in target type"

/-- Digits are read from the left, so of two faults the first one in the text wins. -/
def digits (bound : Nat) : Nat → List Char → Except Fault Nat
  | n, [] => .ok n
  | n, c :: r =>
    if c.isDigit then
      let m := n * 10 + (c.toNat - 48)
      if m < bound then digits bound m r else .error .overflow
    else .error .digit

def read (bound : Nat) (s : String) : Except Fault Nat :=
  match s.toList with
  | [] => .error .empty
  | ['+'] => .error .digit
  | '+' :: r => digits bound 0 r
  | cs => digits bound 0 cs

def uint32 (s : String) : Except Fault Nat := read (Nat.pow 2 32) s

def uint64 (s : String) : Except Fault Nat := read (Nat.pow 2 64) s

/-- A number at the right edge of a field. -/
def aligned (width n : Nat) : String := String.ofList ((toString n).toList.leftpad width ' ')

end Decimal
end ChunkRelay
