import ScopedConfig.Store.History

/-!
# Write batches

All assignments of a batch are written in one transaction. Every scope that the batch names takes
exactly one new revision, which all its assignments share.
-/

namespace ScopedConfig

/-- A value for a property in the scope that parameters name. -/
structure Assignment where
  name : String
  value : Value
  params : List Parameter
  deriving DecidableEq

/-- Where an assignment was written. -/
structure Written where
  name : String
  scope : Scope
  revision : Revision
  deriving DecidableEq, Repr

/-- What a write batch wrote: one place for each assignment, in their order. -/
structure WriteReceipt where
  batch : BatchId
  written : List Written
  deriving DecidableEq

/-- The revision at which a property was written in a scope. -/
def WriteReceipt.revisionOf? (r : WriteReceipt) (name : String) (s : Scope) : Option Revision :=
  (r.written.find? fun w => w.name = name && w.scope.same s).map Written.revision

namespace Store

/-! ### Checking -/

/-- An assignment with the scope that its parameters name. -/
structure Placed where
  scope : Scope
  assignment : Assignment
  deriving DecidableEq

/-- Whether two assignments set the same property in the same scope. -/
def Placed.clashes (p : Placed) (name : String) (s : Scope) : Bool :=
  p.assignment.name = name && p.scope.same s

/-- The assignments with their scopes, after some have been placed already. The first fault is
reported: parameters that name no scope, or a property set twice in one scope. -/
def placeAfter : List Placed → List Assignment → Except StoreError (List Placed)
  | placed, [] => .ok placed
  | placed, a :: rest =>
    match scopeOf a.params with
    | .error e => .error e
    | .ok s =>
      if placed.any (·.clashes a.name s) then .error (.repeatedKey a.name s)
      else placeAfter (placed ++ [⟨s, a⟩]) rest

def place (assignments : List Assignment) : Except StoreError (List Placed) :=
  placeAfter [] assignments

/-! ### Staging -/

/-- A scope, as it was spelt first in the batch, with its record. -/
structure Allotment where
  scope : Scope
  loaded : Loaded
  deriving DecidableEq

/-- The entry that an assignment leads to, and where it belongs. -/
structure Slot where
  scope : Scope
  name : String
  entry : Entry
  deriving DecidableEq

/-- The slot of an assignment: the next revision of its scope. -/
def slotFor? (batch : BatchId) (allotments : List Allotment) (p : Placed) : Option Slot :=
  (allotments.find? (·.scope.same p.scope)).map fun a =>
    ⟨a.scope, p.assignment.name, ⟨a.loaded.nextRevision, p.assignment.value, batch⟩⟩

def Slot.stage (s : Slot) : List Op := stageEntry s.name s.scope s.entry

def Slot.written (s : Slot) : Written := ⟨s.name, s.scope, s.entry.revision⟩

/-- The transaction of a batch: the scopes' next revisions, then the entries. -/
def stageBatch (allotments : List Allotment) (slots : List Slot) : List Op :=
  allotments.flatMap (·.loaded.stageAdvance) ++ slots.flatMap Slot.stage

/-- The record of a scope of the batch. -/
def allot (s : Scope) : Session Allotment := do
  let loaded ← load s
  return ⟨s, loaded⟩

/-! ### Writing -/

/-- One attempt at writing placed assignments. -/
def attemptWrite (placed : List Placed) (batch : BatchId) : Session WriteReceipt := do
  let allotments ← Session.collect allot (Scope.distinct (placed.map Placed.scope))
  let slots := placed.filterMap (slotFor? batch allotments)
  let _ ← Session.transact (stageBatch allotments slots)
  return ⟨batch, slots.map Slot.written⟩

/-- Writes a batch. Each attempt has a batch identity of its own, `ids` being the supply. A batch
without assignments is answered without asking the backend. -/
def write (policy : RetryPolicy) (ids : Nat → BatchId) (assignments : List Assignment) :
    Session WriteReceipt := do
  let placed ← .done (place assignments)
  if placed.isEmpty then return ⟨ids 0, []⟩
  else .optimistic policy fun n => attemptWrite placed (ids n)

end Store

end ScopedConfig
