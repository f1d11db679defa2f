import ScopedConfig.Record
import ScopedConfig.Scope.Identity

/-!
# Where things are stored

The record of a scope lies under `meta/` and the scope's identity; an entry under `rev/`, the
property's name with its length in front, the scope's identity and the revision in twenty digits, so
that the entries of a property in a scope follow one another by revision. One more key counts how
many scopes there are.
-/

namespace ScopedConfig.Layout

/-- What the keys of all scope records start with. -/
def recordPrefix : String := "meta/"

/-- The key that is put whenever a scope is recorded for the first time. -/
def epochKey : String := "scopes/epoch"

def recordKey (i : ScopeId) : String := recordPrefix ++ i.hex

/-- What the keys of all entries of a property in a scope start with. -/
def entryPrefix (property : String) (i : ScopeId) : String :=
  "rev/" ++ Text.decimalText (Bytes.ofText property).length ++ ":" ++ property ++ "/" ++ i.hex ++ "/"

def entryKey (property : String) (i : ScopeId) (n : Revision) : String :=
  entryPrefix property i ++ String.ofList (Text.padded 20 n.toNat)

/-- What is left of a list behind the start of it that is given. -/
def dropPrefix? : List Char → List Char → Option (List Char)
  | [], cs => some cs
  | p :: ps, c :: cs => if p = c then dropPrefix? ps cs else none
  | _ :: _, [] => none

/-- The revision that decimal digits write, after a plus sign or without one. -/
def revisionOf? (cs : List Char) : Option Revision :=
  let digits :=
    match cs with
    | '+' :: digits => digits
    | digits => digits
  (Text.decimal? digits).bind fun n => if n < 2 ^ 64 then some (UInt64.ofNat n) else none

/-- The revision that a key has behind a prefix. -/
def revision? (pre key : String) : Option Revision :=
  (dropPrefix? pre.toList key.toList).bind revisionOf?

end ScopedConfig.Layout
