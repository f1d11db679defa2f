import ScopedConfig.Store.Error

/-!
# The recorded scopes

A catalog is the list of all scope records as of some moment. It tells which scope a query acts on,
whether a query is ambiguous, and how the records will look after a write.
-/

namespace ScopedConfig

structure Catalog where
  records : List ScopeRecord
  deriving DecidableEq, Repr

namespace Catalog

/-- The record of a scope. -/
def find? (c : Catalog) (s : Scope) : Option ScopeRecord := c.records.find? (·.scope.same s)

/-! ### Ambiguity -/

/-- The first two scopes of a list of which neither includes the other. -/
def strangers? : List Scope → Option (Scope × Scope)
  | [] => none
  | s :: rest =>
    match rest.find? fun t => !(s.relation t).isNested with
    | some t => some (s, t)
    | none => strangers? rest

/-- The recorded scopes that a query includes. -/
def covered (c : Catalog) (query : Scope) : List Scope :=
  (c.records.map ScopeRecord.scope).filter (·.within query)

/-- Refuses a query that includes two recorded scopes of which neither includes the other: no single
scope is nearest to it. -/
def checkConflicts (c : Catalog) (query : Scope) : Except StoreError Unit :=
  match strangers? (c.covered query) with
  | some (first, second) => .error (.ambiguousScope query first second)
  | none => .ok ()

/-! ### Looking ahead -/

/-- The records after one more write to a scope. -/
def noteWrite (s : Scope) : List ScopeRecord → List ScopeRecord
  | [] => [(ScopeRecord.blank s).advance]
  | r :: rs => if r.scope.same s then r.advance :: rs else r :: noteWrite s rs

/-- The catalog after one more write to each of some scopes. -/
def afterWrites (c : Catalog) (scopes : List Scope) : Catalog :=
  ⟨scopes.foldl (fun records s => noteWrite s records) c.records⟩

/-- The revision that an activation of a scope would activate: the one asked for, or the working
one. -/
def checkActivation (c : Catalog) (s : Scope) (revision : Option Revision) :
    Except StoreError Revision := do
  c.checkConflicts s
  match c.find? s with
  | none => .error (.unknownScope s.canonical)
  | some r =>
    let n := revision.getD r.working
    if r.hasRevision n then .ok n else .error (.invalidRevision r.scope n r.working)

end Catalog

end ScopedConfig
