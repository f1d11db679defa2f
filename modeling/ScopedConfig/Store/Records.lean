import ScopedConfig.Layout
import ScopedConfig.MessagePack.Forms
import ScopedConfig.Store.Catalog
import ScopedConfig.Store.Session

/-!
# Scope records in the backend

Loading scope records and staging changes to them. A change expects the record at the version at
which it was loaded, so it cannot overwrite anybody else's; creating a record also moves the epoch.
-/

namespace ScopedConfig

/-- A scope record as loaded; without a version it has not been stored yet. -/
structure Loaded where
  record : ScopeRecord
  version : Option Nat
  deriving DecidableEq, Repr

namespace Loaded

/-- Whether the record is stored. -/
def exists? (l : Loaded) : Bool := l.version.isSome

/-- The key of the record, from the scope that the record itself names. -/
def key (l : Loaded) : String := Layout.recordKey l.record.scope.id

/-- The operations that replace the record. -/
def replace (l : Loaded) (r : ScopeRecord) : List Op :=
  [.expect l.key l.version, .put l.key r.pack]

/-- The next working revision. -/
def nextRevision (l : Loaded) : Revision := l.record.advance.working

/-- The operations that take the next working revision. -/
def stageAdvance (l : Loaded) : List Op :=
  l.replace l.record.advance ++ if l.exists? then [] else [.put Layout.epochKey []]

/-- The operations that activate a revision. -/
def stageActivation (l : Loaded) (n : Revision) : Except StoreError (List Op) :=
  if !l.exists? then .error (.unknownScope l.record.scope)
  else if l.record.hasRevision n then .ok (l.replace { l.record with active := some n })
  else .error (.invalidRevision l.record.scope n l.record.working)

end Loaded

namespace Store

/-- The record that some bytes hold. -/
def decodeRecord (bytes : Bytes) : Except StoreError ScopeRecord :=
  match ScopeRecord.unpack? bytes with
  | some r => .ok r
  | none => .error .undecodable

/-- The record of a scope, or a blank one where the scope was never written. -/
def load (s : Scope) : Session Loaded := do
  match ← Session.get (Layout.recordKey s.id) with
  | none => return ⟨.blank s, none⟩
  | some stored =>
    let record ← .done (decodeRecord stored.value)
    return ⟨record, some stored.version⟩

/-- The record of a scope, if the scope was ever written. -/
def recordOf (s : Scope) : Session (Option ScopeRecord) := do
  let loaded ← load s
  return if loaded.exists? then some loaded.record else none

/-- The record of a scope, or a blank one. -/
def recordOrBlank (s : Scope) : Session ScopeRecord := do
  let loaded ← load s
  return loaded.record

/-- The records that rows hold, in their order. -/
def decodeRecords : List Row → Except StoreError (List ScopeRecord)
  | [] => .ok []
  | row :: rows => do
    let record ← decodeRecord row.2.value
    let records ← decodeRecords rows
    return record :: records

/-- The records of all scopes, in the order of their identities. -/
def records : Session (List ScopeRecord) := do
  let rows ← Session.scan Layout.recordPrefix
  .done (decodeRecords rows)

/-- All records, as a catalog. -/
def catalog : Session Catalog := do
  let records ← records
  return ⟨records⟩

/-- The version of the epoch, which moves whenever a scope is recorded for the first time. -/
def epoch : Session (Option Nat) := do
  let stored ← Session.get Layout.epochKey
  return stored.map Versioned.version

/-- Takes the next revision of a scope without writing anything at it. -/
def advance (policy : RetryPolicy) (s : Scope) : Session Revision :=
  .optimistic policy fun _ => do
    let loaded ← load s
    let _ ← Session.transact loaded.stageAdvance
    return loaded.nextRevision

/-- Activates a revision of a scope without looking for conflicts. -/
def setActive (policy : RetryPolicy) (s : Scope) (n : Revision) : Session Unit :=
  .optimistic policy fun _ => do
    let loaded ← load s
    let ops ← .done (loaded.stageActivation n)
    let _ ← Session.transact ops
    return ()

end Store

end ScopedConfig
