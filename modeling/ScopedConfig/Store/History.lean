import ScopedConfig.Store.Records

/-!
# Entries in the backend

The value of a property as of a revision is the last entry at or before it, which a single floor
lookup finds; the history of a property is all its entries in order.
-/

namespace ScopedConfig.Store

/-- The entry that some bytes hold. -/
def decodeEntry (bytes : Bytes) : Except StoreError Entry :=
  match Entry.unpack? bytes with
  | some e => .ok e
  | none => .error .undecodable

/-- The operations that record an entry where there is none yet. -/
def stageEntry (property : String) (s : Scope) (e : Entry) : List Op :=
  let key := Layout.entryKey property s.id e.revision
  [.expect key none, .put key e.pack]

/-- The entry of a property as of a revision. -/
def entryAsOf (property : String) (s : Scope) (n : Revision) : Session (Option Entry) := do
  let pre := Layout.entryPrefix property s.id
  match ← Session.floor pre (Layout.entryKey property s.id n) with
  | none => return none
  | some (key, stored) =>
    if (Layout.revision? pre key).isSome then
      let entry ← .done (decodeEntry stored.value)
      return some entry
    else return none

/-- The entry of a property at exactly a revision. -/
def entryAt (property : String) (s : Scope) (n : Revision) : Session (Option Entry) := do
  match ← Session.get (Layout.entryKey property s.id n) with
  | none => return none
  | some stored =>
    let entry ← .done (decodeEntry stored.value)
    return some entry

/-- The entries that rows under a prefix hold; rows without a revision behind it hold none. -/
def decodeEntries (pre : String) : List Row → Except StoreError (List Entry)
  | [] => .ok []
  | row :: rows =>
    if (Layout.revision? pre row.1).isSome then do
      let entry ← decodeEntry row.2.value
      let entries ← decodeEntries pre rows
      return entry :: entries
    else decodeEntries pre rows

/-- All entries of a property in a scope, oldest first. -/
def historyOf (property : String) (s : Scope) : Session (List Entry) := do
  let pre := Layout.entryPrefix property s.id
  let rows ← Session.scan pre
  .done (decodeEntries pre rows)

/-- A parameter list as the scope it names. -/
def scopeOf (params : List Parameter) : Except StoreError Scope :=
  (Scope.ofParameters params).mapError .input

/-- The history of a property in the scope that parameters name. -/
def history (property : String) (params : List Parameter) : Session (List Entry) := do
  let s ← .done (scopeOf params)
  historyOf property s

/-- The record of the scope that parameters name. -/
def metadata (params : List Parameter) : Session (Option ScopeRecord) := do
  let s ← .done (scopeOf params)
  recordOf s

end ScopedConfig.Store
