import ScopedConfig.Json.Basic
import ScopedConfig.Text.Digits

/-!
# Reading JSON

`Json.parse?` reads a whole text. It accepts the JSON grammar and nothing else: no comments, no
trailing commas, no leading zeros, no controls inside texts.
-/

namespace ScopedConfig.Json

/-! ### White space and literals -/

def isBlank (c : Char) : Bool := c = ' ' || c = '\n' || c = '\r' || c = '\t'

def skipBlanks (cs : List Char) : List Char := cs.dropWhile isBlank

/-- What follows a given word. -/
def word? : List Char → List Char → Option (List Char)
  | [], cs => some cs
  | w :: ws, c :: cs => if w = c then word? ws cs else none
  | _ :: _, [] => none

/-! ### Numbers -/

def isDigit (c : Char) : Bool := (Text.digit? c).isSome

/-- One or more digits and what follows them. -/
def digits? (cs : List Char) : Option (List Char × List Char) :=
  let ds := cs.takeWhile isDigit
  if ds.isEmpty then none else some (ds, cs.dropWhile isDigit)

/-- A fraction, if a dot stands there. -/
def fraction? : List Char → Option (List Char × List Char)
  | '.' :: cs => (digits? cs).map fun (ds, rest) => ('.' :: ds, rest)
  | cs => some ([], cs)

/-- An exponent, if its letter stands there. -/
def exponent? : List Char → Option (List Char × List Char)
  | c :: cs =>
    if c = 'e' || c = 'E' then
      match cs with
      | s :: rest =>
        if s = '+' || s = '-' then (digits? rest).map fun (ds, rest) => (c :: s :: ds, rest)
        else (digits? cs).map fun (ds, rest) => (c :: ds, rest)
      | [] => none
    else some ([], c :: cs)
  | [] => some ([], [])

/-- The whole part of a number: a zero, or digits that do not start with one. -/
def whole? : List Char → Option (List Char × List Char)
  | '0' :: cs => some (['0'], cs)
  | cs => digits? cs

/-- A number without its sign. -/
def magnitude? (cs : List Char) : Option (List Char × List Char) := do
  let (whole, rest) ← whole? cs
  let (fraction, rest) ← fraction? rest
  let (exponent, rest) ← exponent? rest
  return (whole ++ fraction ++ exponent, rest)

def number? : List Char → Option (List Char × List Char)
  | '-' :: cs => (magnitude? cs).map fun (literal, rest) => ('-' :: literal, rest)
  | cs => magnitude? cs

/-! ### Texts -/

/-- The number that four hexadecimal digits write and what follows them. -/
def unit? : List Char → Option (Nat × List Char)
  | a :: b :: c :: d :: rest => do
    let a ← Text.hexDigit? a
    let b ← Text.hexDigit? b
    let c ← Text.hexDigit? c
    let d ← Text.hexDigit? d
    return (a * 4096 + b * 256 + c * 16 + d, rest)
  | _ => none

/-- The code point behind a backslash that is written with one character. -/
def shortEscape? : Char → Option Nat
  | '"' => some 34
  | '\\' => some 92
  | '/' => some 47
  | 'b' => some 8
  | 'f' => some 12
  | 'n' => some 10
  | 'r' => some 13
  | 't' => some 9
  | _ => none

/-- Joins the halves of code points beyond the basic plane; a half on its own stays as it is. -/
def joinHalves : List Nat → List Nat
  | [] => []
  | [unit] => [unit]
  | high :: low :: rest =>
    if 0xd800 ≤ high ∧ high < 0xdc00 ∧ 0xdc00 ≤ low ∧ low < 0xe000 then
      (0x10000 + (high - 0xd800) * 0x400 + (low - 0xdc00)) :: joinHalves rest
    else high :: joinHalves (low :: rest)

/-- The units of a text up to its closing quote and what follows it; `fuel` bounds their number. -/
def units? : Nat → List Char → Option (List Nat × List Char)
  | 0, _ => none
  | _ + 1, [] => none
  | fuel + 1, c :: cs =>
    if c = '"' then some ([], cs)
    else if c = '\\' then
      match cs with
      | 'u' :: rest => do
        let (unit, rest) ← unit? rest
        let (units, rest) ← units? fuel rest
        return (unit :: units, rest)
      | e :: rest => do
        let code ← shortEscape? e
        let (units, rest) ← units? fuel rest
        return (code :: units, rest)
      | [] => none
    else if c.toNat < 32 then none
    else (units? fuel cs).map fun (units, rest) => (c.toNat :: units, rest)

/-- A text behind its opening quote. -/
def text? (cs : List Char) : Option (List Nat × List Char) :=
  (units? (cs.length + 1) cs).map fun (units, rest) => (joinHalves units, rest)

/-! ### Values -/

mutual

/-- A value at the start of a text; `fuel` bounds the number of nested steps. -/
def value? : Nat → List Char → Option (Json × List Char)
  | 0, _ => none
  | fuel + 1, cs =>
    match skipBlanks cs with
    | 'n' :: rest => (word? "ull".toList rest).map (null, ·)
    | 't' :: rest => (word? "rue".toList rest).map (boolean true, ·)
    | 'f' :: rest => (word? "alse".toList rest).map (boolean false, ·)
    | '"' :: rest => (text? rest).map fun (codes, rest) => (text codes, rest)
    | '[' :: rest =>
      match skipBlanks rest with
      | ']' :: rest => some (array [], rest)
      | rest => (items? fuel rest).map fun (items, rest) => (array items, rest)
    | '\x7b' :: rest =>
      match skipBlanks rest with
      | '\x7d' :: rest => some (object [], rest)
      | rest => (members? fuel rest).map fun (members, rest) => (object members, rest)
    | rest => (number? rest).map fun (literal, rest) => (number literal, rest)

/-- The items of an array that has at least one, and its end. -/
def items? : Nat → List Char → Option (List Json × List Char)
  | 0, _ => none
  | fuel + 1, cs =>
    match value? fuel cs with
    | none => none
    | some (item, rest) =>
      match skipBlanks rest with
      | ']' :: rest => some ([item], rest)
      | ',' :: rest => (items? fuel rest).map fun (items, rest) => (item :: items, rest)
      | _ => none

/-- The members of an object that has at least one, and its end. -/
def members? : Nat → List Char → Option (List (List Nat × Json) × List Char)
  | 0, _ => none
  | fuel + 1, cs =>
    match skipBlanks cs with
    | '"' :: rest =>
      match text? rest with
      | none => none
      | some (name, rest) =>
        match skipBlanks rest with
        | ':' :: rest =>
          match value? fuel rest with
          | none => none
          | some (item, rest) =>
            match skipBlanks rest with
            | '\x7d' :: rest => some ([(name, item)], rest)
            | ',' :: rest =>
              (members? fuel rest).map fun (members, rest) => ((name, item) :: members, rest)
            | _ => none
        | _ => none
    | _ => none

end

/-- The value that a whole text writes. -/
def parse? (s : String) : Option Json :=
  match value? (2 * s.length + 2) s.toList with
  | some (json, rest) => if (skipBlanks rest).isEmpty then some json else none
  | none => none

end ScopedConfig.Json
