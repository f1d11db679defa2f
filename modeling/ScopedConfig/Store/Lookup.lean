import ScopedConfig.Store.History

/-!
# Reads

A read names a property and a scope. With a revision it answers what the property was in that very
scope as of the revision; without one, what it is as of the scope's active revision, or of the first
scope it falls back to that has a value.
-/

namespace ScopedConfig

/-- The entry that answers a read. -/
structure Hit where
  /-- The scope that the value comes from. -/
  scope : Scope
  /-- The revision at which the value was written. -/
  revision : Revision
  value : Value
  deriving DecidableEq

/-- The outcome of a read: an entry, if some scope has one. -/
structure Reading where
  name : String
  query : Scope
  hit : Option Hit
  deriving DecidableEq

namespace Reading

def value? (r : Reading) : Option Value := r.hit.map Hit.value

/-- Whether there is an entry, of whatever value. -/
def isFound (r : Reading) : Bool := r.hit.isSome

/-- Whether there is an entry other than null. -/
def isPresent (r : Reading) : Bool := r.value?.any fun v => !v.isNull

def isUnset (r : Reading) : Bool := r.value?.any Value.isUnset

def isNull (r : Reading) : Bool := r.value?.any Value.isNull

end Reading

namespace Store

def hitOf (s : Scope) (e : Entry) : Hit := ⟨s, e.revision, e.value⟩

/-- What a property was in a scope as of a revision. Revisions that were never written have no
value. -/
def readAt (name : String) (s : Scope) (n : Revision) : Session Reading := do
  match ← recordOf s with
  | none => return ⟨name, s, none⟩
  | some record =>
    if record.hasRevision n then
      let entry ← entryAsOf name s n
      return ⟨name, s, entry.map (hitOf record.scope)⟩
    else return ⟨name, s, none⟩

/-- The scopes that a read looks in. -/
def candidates (fallback : Fallback) (s : Scope) : List Scope :=
  match fallback with
  | .none => [s]
  | .lookup => s.fallbacks

/-- The active value of a property in the first of some scopes that has one. -/
def firstHit (catalog : Catalog) (name : String) : List Scope → Session (Option Hit)
  | [] => return none
  | s :: rest =>
    match catalog.find? s with
    | none => firstHit catalog name rest
    | some record =>
      match record.active with
      | none => firstHit catalog name rest
      | some n => do
        match ← entryAsOf name s n with
        | some entry => return some (hitOf record.scope entry)
        | none => firstHit catalog name rest

/-- What a property is in a scope, as of a catalog's active revisions. -/
def readActive (fallback : Fallback) (catalog : Catalog) (name : String) (s : Scope) :
    Session Reading := do
  let _ ← .done (catalog.checkConflicts s)
  let hit ← firstHit catalog name (candidates fallback s)
  return ⟨name, s, hit⟩

end Store

end ScopedConfig
