import ScopedConfig.Bytes
import ScopedConfig.Text.Digits

/-!
# Percent-encoding

A character outside a part's own alphabet is written as its UTF-8 bytes, each as `%` and two
upper-case hexadecimal digits. The parts of a URI differ in which ASCII characters they escape;
control and non-ASCII characters are escaped in all of them.
-/

namespace ScopedConfig.Uri

/-! ### What each part escapes -/

/-- Controls and characters outside ASCII. -/
def isControl (c : Char) : Bool := c.toNat < 32 || 126 < c.toNat

def escapedInFragment (c : Char) : Bool := isControl c || [' ', '"', '<', '>', '\x60'].contains c

def escapedInPath (c : Char) : Bool := escapedInFragment c || ['#', '?', '\x7b', '\x7d'].contains c

def escapedInUserinfo (c : Char) : Bool :=
  escapedInPath c || ['/', ':', ';', '=', '@', '[', '\\', ']', '^', '|'].contains c

def escapedInQuery (c : Char) : Bool := isControl c || [' ', '"', '#', '<', '>'].contains c

/-- Schemes with an authority of their own rules also escape the apostrophe in queries. -/
def escapedInSpecialQuery (c : Char) : Bool := escapedInQuery c || c == '\''

/-! ### Encoding and decoding -/

/-- The upper-case hexadecimal digit of a number below sixteen. -/
def upperHexDigit (n : Nat) : Char :=
  if n % 16 < 10 then Char.ofNat (48 + n % 16) else Char.ofNat (55 + n % 16)

/-- One byte, escaped. -/
def escapeByte (b : UInt8) : List Char :=
  ['%', upperHexDigit (b.toNat / 16), upperHexDigit b.toNat]

/-- A character as it stands in a part that escapes the given class. -/
def escapeChar (escaped : Char → Bool) (c : Char) : List Char :=
  if escaped c then (Bytes.ofText (String.singleton c)).flatMap escapeByte else [c]

/-- The characters of a part, escaped where the class says so. -/
def escape (escaped : Char → Bool) (cs : List Char) : List Char := cs.flatMap (escapeChar escaped)

/-- The bytes that a part stands for; a `%` without two digits after it stands for itself. -/
def unescape : List Char → Bytes
  | [] => []
  | c :: rest =>
    match c, rest with
    | '%', a :: b :: more =>
      match Text.hexDigit? a, Text.hexDigit? b with
      | some x, some y => UInt8.ofNat (16 * x + y) :: unescape more
      | _, _ => Bytes.ofText "%" ++ unescape (a :: b :: more)
    | c, rest => Bytes.ofText (String.singleton c) ++ unescape rest
termination_by cs => cs.length

end ScopedConfig.Uri
