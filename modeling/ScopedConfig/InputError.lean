import ScopedConfig.Text.Quoted
import ScopedConfig.Uri.Basic

/-!
# What can be wrong with a caller's input

Parameter lists and URIs are checked before anything else happens; `InputError` says what the
check found.
-/

namespace ScopedConfig

inductive InputError where
  /-- A parameter without a name. -/
  | emptyName
  /-- A name that stands twice in one list. -/
  | repeatedName (name : String)
  /-- A parameter that fits any value, where one scope has to be named. -/
  | wildcard (name : String)
  /-- A text that is no absolute URI. -/
  | malformedUri (text : String) (reason : Uri.ParseError)
  deriving DecidableEq, Repr

def InputError.message : InputError → String
  | .emptyName => "invalid parameter: parameter name is empty"
  | .repeatedName name => "duplicate parameter name: " ++ name
  | .wildcard name => "wildcard parameter not allowed outside a list filter: " ++ name
  | .malformedUri text reason => "invalid uri " ++ Text.quoted text ++ ": " ++ reason.message

end ScopedConfig
