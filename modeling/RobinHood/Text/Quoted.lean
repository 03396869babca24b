import RobinHood.Text.Hidden

/-!
# Quoted texts

A text is quoted by putting it between double quotes. A quote or backslash inside is preceded by
a backslash, the common controls have a letter each, and any other character without a form of
its own is written as its code point in hexadecimal.
-/

namespace RobinHood

namespace Text

/-- The characters that stand for one character inside quotes. -/
def escape (c : Char) : List Char :=
  match c with
  | '\x00' => ['\\', '0']
  | '\t' => ['\\', 't']
  | '\r' => ['\\', 'r']
  | '\n' => ['\\', 'n']
  | '\\' => ['\\', '\\']
  | '"' => ['\\', '"']
  | c =>
    if isHidden c then ['\\', 'u', '\x7b'] ++ Nat.toDigits 16 c.toNat ++ ['\x7d']
    else [c]

/-- A text between double quotes. -/
def quote (s : String) : String := String.ofList ('"' :: s.toList.flatMap escape ++ ['"'])

end Text

end RobinHood
