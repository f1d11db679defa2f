import ScopedConfig.Text.Digits
import ScopedConfig.Text.Unprintable

/-!
# Quoted texts

A text between double quotes in which every character shows: quotes, backslashes and the common
controls are written with a backslash, and any other character without a glyph of its own by its
number in hexadecimal.
-/

namespace ScopedConfig.Text

/-- How a character is shown inside quotes. -/
def shown (c : Char) : List Char :=
  match c with
  | '"' => ['\\', '"']
  | '\\' => ['\\', '\\']
  | '\n' => ['\\', 'n']
  | '\r' => ['\\', 'r']
  | '\t' => ['\\', 't']
  | '\x00' => ['\\', '0']
  | c =>
    if isUnprintable c then ['\\', 'u', '\x7b'] ++ hexadecimal c.toNat ++ ['\x7d'] else [c]

/-- A text between quotes. -/
def quoted (s : String) : String :=
  String.ofList ('"' :: s.toList.flatMap shown ++ ['"'])

end ScopedConfig.Text
