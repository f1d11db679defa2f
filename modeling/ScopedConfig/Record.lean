import ScopedConfig.BatchId
import ScopedConfig.Scope.Basic
import ScopedConfig.Value

/-!
# What is recorded

Each scope has one record with its two revision pointers, and each property set in it one entry for
every revision at which it was set. Revisions of a scope count from one.
-/

namespace ScopedConfig

/-- The number of a revision of a scope. -/
abbrev Revision := UInt64

/-- The revision pointers of a scope. -/
structure ScopeRecord where
  scope : Scope
  /-- The highest revision written so far. -/
  working : Revision
  /-- The revision that reads see unless they name one. -/
  active : Option Revision
  deriving DecidableEq, Repr

namespace ScopeRecord

/-- The record of a scope that was never written. -/
def blank (s : Scope) : ScopeRecord := ⟨s.canonical, 0, none⟩

/-- The record after one more revision. -/
def advance (r : ScopeRecord) : ScopeRecord := { r with working := r.working + 1 }

/-- Whether a revision has been written. -/
def hasRevision (r : ScopeRecord) (n : Revision) : Bool := n ≠ 0 && n ≤ r.working

end ScopeRecord

/-- One value of a property in a scope. -/
structure Entry where
  revision : Revision
  value : Value
  /-- The write batch that recorded the value. -/
  batch : BatchId
  deriving DecidableEq

end ScopedConfig
