import ScopedConfig.Scope.Filter
import ScopedConfig.Store.Lookup

/-!
# Listings

A listing reads the active value of a property in every recorded scope that a filter admits, in the
order of the scopes' texts.
-/

namespace ScopedConfig.Store

/-- The records that a filter admits, in the order of their scopes' texts. -/
def admitted (catalog : Catalog) (filter : Filter) (coverage : Coverage) : List ScopeRecord :=
  sortBy (fun r q => r.scope.text ≤ q.scope.text)
    (catalog.records.filter fun r => filter.admits coverage r.scope)

/-- The active values of a property in the scopes of some records that have one. -/
def readEach (name : String) : List ScopeRecord → Session (List Reading)
  | [] => return []
  | record :: rest =>
    match record.active with
    | none => readEach name rest
    | some n => do
      let entry ← entryAsOf name record.scope n
      let readings ← readEach name rest
      match entry with
      | some entry => return ⟨name, record.scope, some (hitOf record.scope entry)⟩ :: readings
      | none => return readings

/-- The active values of a property in all scopes that a filter admits. -/
def list (catalog : Catalog) (name : String) (filter : Filter) (coverage : Coverage) :
    Session (List Reading) :=
  readEach name (admitted catalog filter coverage)

end ScopedConfig.Store
