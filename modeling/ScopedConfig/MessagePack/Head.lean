import ScopedConfig.Bytes

/-!
# MessagePack heads

A MessagePack item starts with a head: the whole item for numbers and constants, the length for
texts, byte strings, arrays and maps. `Head.write` uses the shortest form, `Head.read` takes any
form. Extension types are not used here and are refused.
-/

namespace ScopedConfig.MessagePack

inductive Head where
  | nil
  | boolean (b : Bool)
  | integer (i : Int)
  | float32 (bits : UInt32)
  | float64 (bits : UInt64)
  | text (length : Nat)
  | binary (length : Nat)
  | array (length : Nat)
  | map (length : Nat)
  deriving DecidableEq, Repr

namespace Head

/-! ### Writing -/

/-- A number in a given width behind its mark. -/
def wide (mark : UInt8) (width n : Nat) : Bytes := mark :: Bytes.bigEndian width n

/-- A natural number in its shortest form. -/
def writeNat (n : Nat) : Bytes :=
  if n < 0x80 then [UInt8.ofNat n]
  else if n < 0x100 then wide 0xcc 1 n
  else if n < 0x10000 then wide 0xcd 2 n
  else if n < 0x100000000 then wide 0xce 4 n
  else wide 0xcf 8 n

/-- The number `-(n + 1)` in its shortest form, as a two's complement. -/
def writeNegative (n : Nat) : Bytes :=
  if n < 0x20 then [UInt8.ofNat (0xff - n)]
  else if n < 0x80 then wide 0xd0 1 (0xff - n)
  else if n < 0x8000 then wide 0xd1 2 (0xffff - n)
  else if n < 0x80000000 then wide 0xd2 4 (0xffffffff - n)
  else wide 0xd3 8 (0xffffffffffffffff - n)

/-- A length below `short` in one byte with the base, otherwise behind a mark of its own. -/
def writeLength (base short : Nat) (marks : List (Nat × Nat × UInt8)) (n : Nat) : Bytes :=
  if n < short then [UInt8.ofNat (base + n)]
  else
    match marks.find? fun m => n < m.1 with
    | some (_, width, mark) => wide mark width n
    | none => []

def textMarks : List (Nat × Nat × UInt8) :=
  [(0x100, 1, 0xd9), (0x10000, 2, 0xda), (0x100000000, 4, 0xdb)]

def binaryMarks : List (Nat × Nat × UInt8) :=
  [(0x100, 1, 0xc4), (0x10000, 2, 0xc5), (0x100000000, 4, 0xc6)]

def arrayMarks : List (Nat × Nat × UInt8) := [(0x10000, 2, 0xdc), (0x100000000, 4, 0xdd)]

def mapMarks : List (Nat × Nat × UInt8) := [(0x10000, 2, 0xde), (0x100000000, 4, 0xdf)]

/-- The shortest form of a head. Numbers are within 64 bits and lengths within 32. -/
def write : Head → Bytes
  | .nil => [0xc0]
  | .boolean false => [0xc2]
  | .boolean true => [0xc3]
  | .integer (.ofNat n) => writeNat n
  | .integer (.negSucc n) => writeNegative n
  | .float32 bits => wide 0xca 4 bits.toNat
  | .float64 bits => wide 0xcb 8 bits.toNat
  | .text n => writeLength 0xa0 0x20 textMarks n
  | .binary n => writeLength 0 0 binaryMarks n
  | .array n => writeLength 0x90 0x10 arrayMarks n
  | .map n => writeLength 0x80 0x10 mapMarks n

/-! ### Reading -/

/-- The first `n` bytes and the rest, if there are that many. -/
def split? (n : Nat) (bytes : Bytes) : Option (Bytes × Bytes) :=
  if n ≤ bytes.length then some (bytes.take n, bytes.drop n) else none

/-- A head that is made of a number of a given width. -/
def numbered (width : Nat) (make : Nat → Head) (bytes : Bytes) : Option (Head × Bytes) :=
  (split? width bytes).map fun (digits, rest) => (make (Bytes.toNat digits), rest)

/-- The integer that a two's complement of a given width stands for. -/
def signed (width n : Nat) : Head :=
  .integer (if n < 2 ^ (8 * width - 1) then n else (n : Int) - 2 ^ (8 * width))

/-- The head at the start of a byte string and what follows it. -/
def read : Bytes → Option (Head × Bytes)
  | [] => none
  | mark :: rest =>
    let n := mark.toNat
    if n < 0x80 then some (.integer n, rest)
    else if n < 0x90 then some (.map (n - 0x80), rest)
    else if n < 0xa0 then some (.array (n - 0x90), rest)
    else if n < 0xc0 then some (.text (n - 0xa0), rest)
    else if 0xe0 ≤ n then some (.integer ((n : Int) - 0x100), rest)
    else
      match mark with
      | 0xc0 => some (.nil, rest)
      | 0xc2 => some (.boolean false, rest)
      | 0xc3 => some (.boolean true, rest)
      | 0xc4 => numbered 1 .binary rest
      | 0xc5 => numbered 2 .binary rest
      | 0xc6 => numbered 4 .binary rest
      | 0xca => numbered 4 (fun bits => .float32 (UInt32.ofNat bits)) rest
      | 0xcb => numbered 8 (fun bits => .float64 (UInt64.ofNat bits)) rest
      | 0xcc => numbered 1 (fun n => .integer n) rest
      | 0xcd => numbered 2 (fun n => .integer n) rest
      | 0xce => numbered 4 (fun n => .integer n) rest
      | 0xcf => numbered 8 (fun n => .integer n) rest
      | 0xd0 => numbered 1 (signed 1) rest
      | 0xd1 => numbered 2 (signed 2) rest
      | 0xd2 => numbered 4 (signed 4) rest
      | 0xd3 => numbered 8 (signed 8) rest
      | 0xd9 => numbered 1 .text rest
      | 0xda => numbered 2 .text rest
      | 0xdb => numbered 4 .text rest
      | 0xdc => numbered 2 .array rest
      | 0xdd => numbered 4 .array rest
      | 0xde => numbered 2 .map rest
      | 0xdf => numbered 4 .map rest
      | _ => none

end Head

end ScopedConfig.MessagePack
