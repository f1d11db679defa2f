import ScopedConfig.Binary64
import ScopedConfig.MessagePack.Head

/-!
# Reading MessagePack items

Readers take one item from the front of a byte string. They are lenient about the form of a head
and strict about what it stands for: a number has to be in range, an array to have the right length,
a text to be UTF-8.
-/

namespace ScopedConfig.MessagePack

/-- Takes something from the front of a byte string, or refuses it. -/
abbrev Reader (α : Type) := Bytes → Option (α × Bytes)

namespace Reader

/-- Goes on with what was read. -/
def next {α β : Type} (r : Reader α) (k : α → Reader β) : Reader β := fun bytes =>
  (r bytes).bind fun (a, rest) => k a rest

/-- Takes nothing. -/
def done {α : Type} (a : α) : Reader α := fun bytes => some (a, bytes)

/-- Refuses what stands there. -/
def refuse {α : Type} : Reader α := fun _ => none

/-- Reads a value that is only accepted if it has the given form. -/
def accept {α : Type} : Option α → Reader α
  | some a => done a
  | none => refuse

/-- Exactly `n` bytes. -/
def raw (n : Nat) : Reader Bytes := Head.split? n

/-- A byte string; a text that is not UTF-8 counts as one. -/
def binary : Reader Bytes :=
  next Head.read fun
    | .binary n => raw n
    | .text n => next (raw n) fun bytes => if (Bytes.text? bytes).isSome then refuse else done bytes
    | _ => refuse

/-- A text under a text head. -/
def plainText : Reader String :=
  next Head.read fun
    | .text n => next (raw n) fun bytes => accept (Bytes.text? bytes)
    | _ => refuse

/-- A text; a byte string that is UTF-8 counts as one. -/
def text : Reader String :=
  next Head.read fun
    | .text n => next (raw n) fun bytes => accept (Bytes.text? bytes)
    | .binary n => next (raw n) fun bytes => accept (Bytes.text? bytes)
    | _ => refuse

/-- A natural number below `2 ^ 64`. -/
def unsigned : Reader UInt64 :=
  next Head.read fun
    | .integer i => if 0 ≤ i ∧ i < 2 ^ 64 then done (UInt64.ofNat i.toNat) else refuse
    | _ => refuse

/-- A natural number below `2 ^ 8`. -/
def byte : Reader UInt8 :=
  next Head.read fun
    | .integer i => if 0 ≤ i ∧ i < 2 ^ 8 then done (UInt8.ofNat i.toNat) else refuse
    | _ => refuse

/-- An integer from `-2 ^ 63` to `2 ^ 63 - 1`. -/
def signed : Reader Int64 :=
  next Head.read fun
    | .integer i => if -2 ^ 63 ≤ i ∧ i < 2 ^ 63 then done (Int64.ofInt i) else refuse
    | _ => refuse

/-- A floating-point number; an integer counts as the double nearest to it. -/
def float : Reader Binary64 :=
  next Head.read fun
    | .float64 bits => done bits
    | .float32 bits => done (Binary64.ofBinary32 bits)
    | .integer i => done (Binary64.ofInt i)
    | _ => refuse

def boolean : Reader Bool :=
  next Head.read fun
    | .boolean b => done b
    | _ => refuse

def nil : Reader Unit :=
  next Head.read fun
    | .nil => done ()
    | _ => refuse

/-- Nil, or an item. -/
def orNil {α : Type} (r : Reader α) : Reader (Option α) := fun bytes =>
  match Head.read bytes with
  | some (.nil, rest) => some (none, rest)
  | _ => next r (fun a => done (some a)) bytes

/-- A given number of items. -/
def items {α : Type} (r : Reader α) : Nat → Reader (List α)
  | 0 => done []
  | n + 1 => next r fun a => next (items r n) fun as => done (a :: as)

/-- An array of any length. -/
def array {α : Type} (r : Reader α) : Reader (List α) :=
  next Head.read fun
    | .array n => items r n
    | _ => refuse

/-- An array of exactly `n` items, of which only the head is read here. -/
def tuple (n : Nat) : Reader Unit :=
  next Head.read fun
    | .array m => if m = n then done () else refuse
    | _ => refuse

/-- The name of an alternative and whether its content follows: a bare name has none, in a map of one
pair the content is the value. -/
def alternative : Reader (String × Bool) := fun bytes =>
  match Head.read bytes with
  | some (.map n, rest) => if n = 1 then next text (fun name => done (name, true)) rest else none
  | _ => next text (fun name => done (name, false)) bytes

end Reader

end ScopedConfig.MessagePack
