import ScopedConfig.Table.Basic

/-!
# Ranges of keys

The rows under a prefix are those between the prefix and the first text behind all texts that start
with it; the floor of a key is the last row under the prefix that is not behind the key.
-/

namespace ScopedConfig

/-- Whether a text starts with another one. -/
def startsWith (pre s : String) : Bool := pre.toList.isPrefixOf s.toList

/-- The next code point, if there is one; surrogates are no code points of texts. -/
def nextChar? (c : Char) : Option Char :=
  let next := if c.toNat = 0xd7ff then 0xe000 else c.toNat + 1
  if next < 0x110000 then some (Char.ofNat next) else none

/-- The characters of a text in reverse order, with the last one that has a successor replaced by it
and those behind dropped. -/
def bump? : List Char → Option (List Char)
  | [] => none
  | c :: cs =>
    match nextChar? c with
    | some next => some (next :: cs)
    | none => bump? cs

/-- The first text behind all texts that start with `pre`, if there is one. -/
def prefixEnd? (pre : String) : Option String :=
  (bump? pre.toList.reverse).map fun cs => String.ofList cs.reverse

namespace Table

/-- The rows whose keys start with a prefix, in ascending order. -/
def scan (t : Table) (pre : String) : List Row :=
  match prefixEnd? pre with
  | some stop => t.rows.filter fun r => pre ≤ r.1 && r.1 < stop
  | none => t.rows.filter fun r => pre ≤ r.1

/-- The row with the greatest key that starts with a prefix and is not behind `key`. -/
def floor (t : Table) (pre key : String) : Option Row :=
  if startsWith pre key then (t.rows.filter fun r => pre ≤ r.1 && r.1 ≤ key).getLast? else none

end Table

end ScopedConfig
