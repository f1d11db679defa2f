import ScopedConfig.Text.Digits

/-!
# Numeric hosts

IPv4 addresses, written with one to four numbers in decimal, octal or hexadecimal, and IPv6
addresses, written as eight pieces of which a run of zeros may be left out. Both have one printed
form.
-/

namespace ScopedConfig.Uri

/-- The parts of a list between occurrences of a separator. -/
def splitAt (sep : Char) : List Char → List (List Char)
  | [] => [[]]
  | c :: cs =>
    if c = sep then [] :: splitAt sep cs
    else
      match splitAt sep cs with
      | [] => [[c]]
      | part :: parts => (c :: part) :: parts

/-- The parts of a text, joined with a separator between them. -/
def joinWith (sep : List Char) : List (List Char) → List Char
  | [] => []
  | [part] => part
  | part :: parts => part ++ sep ++ joinWith sep parts

/-- The number that digits write in a given base, if each is a digit of it. -/
def numeral? (base : Nat) (cs : List Char) : Option Nat :=
  cs.foldlM (fun n c => (Text.hexDigit? c).bind fun d => if d < base then some (base * n + d) else none) 0

/-! ### IPv4 -/

/-- A number of an IPv4 address: hexadecimal after `0x`, octal after a leading zero. -/
def addressNumber? (cs : List Char) : Option Nat :=
  match cs with
  | [] => none
  | '0' :: 'x' :: digits => numeral? 16 digits
  | '0' :: 'X' :: digits => numeral? 16 digits
  | '0' :: d :: digits => numeral? 8 (d :: digits)
  | digits => numeral? 10 digits

/-- The labels of a domain, without the empty one that a final dot leaves. -/
def labels (domain : List Char) : List (List Char) :=
  let parts := splitAt '.' domain
  if parts.getLast? = some [] then parts.dropLast else parts

/-- Whether a domain has to be read as an IPv4 address: its last label is a number. -/
def endsInNumber (domain : List Char) : Bool :=
  match (labels domain).getLast? with
  | none => false
  | some last =>
    (!last.isEmpty && last.all fun c => (Text.digit? c).isSome) || (addressNumber? last).isSome

/-- The address that up to four numbers write: all but the last stand for one byte each, the last
for the bytes that are left. -/
def address? (numbers : List Nat) : Option Nat :=
  match numbers.getLast? with
  | none => none
  | some last =>
    let bytes := numbers.dropLast
    if 4 < numbers.length || bytes.any (255 < ·) || 256 ^ (4 - bytes.length) ≤ last then none
    else
      let high := bytes.foldl (fun n b => 256 * n + b) 0
      some (high * 256 ^ (4 - bytes.length) + last)

/-- The IPv4 address of a domain that ends in a number. -/
def ipv4? (domain : List Char) : Option Nat :=
  ((labels domain).mapM addressNumber?).bind address?

/-- Four decimal numbers with dots between them. -/
def ipv4Text (address : Nat) : List Char :=
  joinWith ['.'] ([256 ^ 3, 256 ^ 2, 256, 1].map fun unit => Text.decimal (address / unit % 256))

/-! ### IPv6 -/

/-- The longest run of hexadecimal digits at the start, at most `most` of them: its value, its
length and what follows. -/
def hexRun : Nat → Nat → Nat → List Char → Nat × Nat × List Char
  | 0, value, count, cs => (value, count, cs)
  | _ + 1, value, count, [] => (value, count, [])
  | most + 1, value, count, c :: cs =>
    match Text.hexDigit? c with
    | some d => hexRun most (16 * value + d) (count + 1) cs
    | none => (value, count, c :: cs)

/-- One number of the dotted end of an IPv6 address: a byte in decimal, without leading zeros. -/
def dottedByte? (cs : List Char) : Option Nat :=
  if cs.isEmpty || (1 < cs.length && cs.head? == some '0') || 3 < cs.length then none
  else (numeral? 10 cs).bind fun n => if n ≤ 255 then some n else none

/-- The two pieces that four dotted numbers stand for. -/
def dottedPieces? (cs : List Char) : Option (List Nat) :=
  match (splitAt '.' cs).mapM dottedByte? with
  | some [a, b, c, d] => some [256 * a + b, 256 * c + d]
  | _ => none

/-- The pieces of an IPv6 address from where `read` pieces have been read, with the place where
a run of zeros was left out. `fuel` bounds the number of pieces. -/
def ipv6Pieces? : Nat → List Nat → Option Nat → List Char → Option (List Nat × Option Nat)
  | _, read, gap, [] => some (read, gap)
  | 0, _, _, _ :: _ => none
  | fuel + 1, read, gap, c :: cs =>
    if read.length = 8 then none
    else if c = ':' then
      if gap.isSome then none else ipv6Pieces? fuel (read ++ [0]) (some (read.length + 1)) cs
    else
      match hexRun 4 0 0 (c :: cs) with
      | (value, _, []) => some (read ++ [value], gap)
      | (value, _, ':' :: d :: rest) => ipv6Pieces? fuel (read ++ [value]) gap (d :: rest)
      | (_, count, '.' :: _) =>
        if count = 0 || 6 < read.length then none
        else (dottedPieces? (c :: cs)).map fun pieces => (read ++ pieces, gap)
      | _ => none

/-- The eight pieces of an IPv6 address. -/
def ipv6? (cs : List Char) : Option (List Nat) :=
  let parsed :=
    match cs with
    | ':' :: ':' :: rest => ipv6Pieces? 9 [0] (some 1) rest
    | ':' :: _ => none
    | [] => none
    | [_] => none
    | cs => ipv6Pieces? 9 [] none cs
  match parsed with
  | some (pieces, some gap) =>
    some (pieces.take gap ++ List.replicate (8 - pieces.length) 0 ++ pieces.drop gap)
  | some (pieces, none) => if pieces.length = 8 then some pieces else none
  | none => none

/-- The length of the run of zeros at the start. -/
def zeroRun (pieces : List Nat) : Nat := (pieces.takeWhile (· == 0)).length

/-- Where the longest run of zeros starts and how long it is; of two, the first. -/
def longestZeroRun (pieces : List Nat) : Nat × Nat :=
  (List.range pieces.length).foldl
    (fun best i => if best.2 < zeroRun (pieces.drop i) then (i, zeroRun (pieces.drop i)) else best)
    (0, 0)

/-- The pieces in hexadecimal; the first longest run of at least two zeros is left out. -/
def ipv6Text (pieces : List Nat) : List Char :=
  let part (ps : List Nat) := joinWith [':'] (ps.map Text.hexadecimal)
  let (start, length) := longestZeroRun pieces
  if length < 2 then part pieces
  else part (pieces.take start) ++ [':', ':'] ++ part (pieces.drop (start + length))

end ScopedConfig.Uri
