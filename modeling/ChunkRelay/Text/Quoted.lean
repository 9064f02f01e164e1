import ChunkRelay.Text.Printable

/-! Text in double quotes for messages: a character that cannot be shown as itself is written as an
escape, by a short name where it has one and by its code point in hexadecimal otherwise. -/
namespace ChunkRelay
namespace Quoted

def escape (c : Char) : List Char :=
  match c with
  | '\x00' => ['\\', '0']
  | '\t' => ['\\', 't']
  | '\n' => ['\\', 'n']
  | '\r' => ['\\', 'r']
  | '\\' => ['\\', '\\']
  | '"' => ['\\', '"']
  | c => if Printable.isHidden c then
      ['\\', 'u', '\x7b'] ++ Nat.toDigits 16 c.toNat ++ ['\x7d']
    else [c]

def quote (s : String) : String := String.ofList ('"' :: s.toList.flatMap escape ++ ['"'])

end Quoted
end ChunkRelay
