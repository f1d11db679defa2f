import ScopedConfig.Record
import ScopedConfig.Settings.Basic
import ScopedConfig.Table.Transaction

/-!
# Why a call on the store failed
-/

namespace ScopedConfig

inductive StoreError where
  | backend (e : BackendError)
  | input (e : InputError)
  /-- Stored bytes that are no record or entry. -/
  | undecodable
  /-- A scope that includes two recorded scopes of which neither includes the other. -/
  | ambiguousScope (query first second : Scope)
  | invalidRevision (scope : Scope) (requested working : Revision)
  | unknownScope (scope : Scope)
  | repeatedKey (name : String) (scope : Scope)
  /-- A batch of several reads, or of none, where one result was asked for. -/
  | notSingular (results : Nat)
  | retriesExhausted (attempts : Nat)
  | invalidSettings (e : SettingsError)
  deriving DecidableEq, Repr

namespace StoreError

def message : StoreError → String
  | .backend e => "storage error: " ++ e.message
  | .input e => "core error: " ++ e.message
  | .undecodable => "serialization error"
  | .ambiguousScope query first second =>
    "ambiguous scope " ++ query.text ++ ": matches both " ++ first.text ++ " and " ++
      second.text ++ ", neither contains the other"
  | .invalidRevision scope requested working =>
    "invalid revision " ++ Text.decimalText requested.toNat ++ " for scope " ++ scope.text ++
      ": working revision is " ++ Text.decimalText working.toNat
  | .unknownScope scope => "unknown scope: " ++ scope.text
  | .repeatedKey name scope =>
    "property " ++ name ++ " set twice for scope " ++ scope.text ++ " in one batch"
  | .notSingular results => "expected exactly one result, got " ++ Text.decimalText results
  | .retriesExhausted attempts =>
    "write conflicted " ++ Text.decimalText attempts ++ " times, giving up"
  | .invalidSettings e => "invalid config: " ++ e.message

/-- Whether the backend was out of reach, so that the call may be made again. -/
def isRetryable : StoreError → Bool
  | .backend e => e.isUnavailable
  | _ => false

/-- Whether another transaction got in between, so that a new attempt may succeed. -/
def isConflict : StoreError → Bool
  | .backend e => e.isConflict
  | _ => false

end StoreError

end ScopedConfig
