import ScopedConfig.Binary64
import ScopedConfig.InputError
import ScopedConfig.Uri.Parse

/-!
# Configuration values

What a property can be set to. `unset` records that the property was cleared and keeps its history;
`null` is an empty value that was written on purpose.
-/

namespace ScopedConfig

inductive Value where
  | unset
  | null
  | text (s : String)
  | integer (i : Int64)
  | float (bits : Binary64)
  | boolean (b : Bool)
  | uri (u : Uri)
  deriving DecidableEq

namespace Value

/-- A URI value, brought to normal form. -/
def ofUriText (s : String) : Except InputError Value :=
  match Uri.parse s with
  | .ok u => .ok (.uri u)
  | .error reason => .error (.malformedUri s reason)

/-- Whether two values are the same: floats by their bits, URIs by their normal forms. -/
def same : Value → Value → Bool
  | .unset, .unset => true
  | .null, .null => true
  | .text s, .text t => s = t
  | .integer i, .integer j => i = j
  | .float x, .float y => x = y
  | .boolean b, .boolean c => b = c
  | .uri u, .uri v => u.text = v.text
  | _, _ => false

/-! ### Views -/

def isUnset : Value → Bool
  | .unset => true
  | _ => false

def isNull : Value → Bool
  | .null => true
  | _ => false

def asText? : Value → Option String
  | .text s => some s
  | _ => none

def asInteger? : Value → Option Int64
  | .integer i => some i
  | _ => none

/-- The value as a float; an integer counts as the double nearest to it. -/
def asFloat? : Value → Option Binary64
  | .float bits => some bits
  | .integer i => some (Binary64.ofInt i.toInt)
  | _ => none

def asBoolean? : Value → Option Bool
  | .boolean b => some b
  | _ => none

def asUri? : Value → Option Uri
  | .uri u => some u
  | _ => none

end Value

end ScopedConfig
