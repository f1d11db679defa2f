import ScopedConfig.Store.Activate
import ScopedConfig.Store.Listing
import ScopedConfig.Store.Write

/-!
# Mixed batches

A batch of assignments, activations and reads runs in phases: all assignments as one write, then the
activations one by one, then the reads. Before anything is written, the activations and reads are
checked against the catalog as the assignments will leave it.
-/

namespace ScopedConfig

/-- A read of a property in the scope that parameters name, as of a revision or of the active one. -/
structure Query where
  name : String
  params : List Parameter
  revision : Option Revision
  deriving DecidableEq

/-- A listing of a property over the scopes that a filter admits. -/
structure ListQuery where
  name : String
  filter : List Parameter
  coverage : Coverage
  deriving DecidableEq

/-- One member of a batch. -/
inductive Operation where
  | assign (a : Assignment)
  | read (q : Query)
  | activate (a : Activation)
  | list (q : ListQuery)
  deriving DecidableEq

/-- What a member of a batch led to. -/
inductive Outcome where
  | written (w : Written)
  | value (r : Reading)
  | activated (a : Activated)
  | listed (rs : List Reading)
  deriving DecidableEq

namespace Operation

def assignment? : Operation → Option Assignment
  | .assign a => some a
  | _ => none

def activation? : Operation → Option Activation
  | .activate a => some a
  | _ => none

/-- Whether an operation depends on the catalog. -/
def needsCatalog : Operation → Bool
  | .assign _ => false
  | .read q => q.revision.isNone
  | .activate _ => true
  | .list _ => true

end Operation

namespace Store

/-! ### Checking ahead -/

/-- The scopes that the assignments of a batch name. -/
def assignedScopes : List Operation → Except StoreError (List Scope)
  | [] => .ok []
  | .assign a :: ops => do
    let s ← scopeOf a.params
    let scopes ← assignedScopes ops
    return s :: scopes
  | _ :: ops => assignedScopes ops

/-- Whether an operation will succeed on a catalog. -/
def check (catalog : Catalog) : Operation → Except StoreError Unit
  | .assign _ => .ok ()
  | .activate a => do
    let s ← scopeOf a.params
    let _ ← catalog.checkActivation s a.revision
  | .read q => do
    let s ← scopeOf q.params
    if q.revision.isNone then catalog.checkConflicts s else .ok ()
  | .list q => do
    let _ ← (Filter.ofParameters q.filter).mapError .input

def checkEach (catalog : Catalog) : List Operation → Except StoreError Unit
  | [] => .ok ()
  | op :: ops => do
    check catalog op
    checkEach catalog ops

/-- The check before a batch: its operations against the catalog as its assignments will leave it. -/
def preflight (catalog : Catalog) (ops : List Operation) : Except StoreError Unit := do
  let scopes ← assignedScopes ops
  checkEach (catalog.afterWrites (Scope.distinct scopes)) ops

/-! ### Phases -/

/-- What one read of a batch answers; other operations answer nothing here. -/
def answer (fallback : Fallback) (catalog : Catalog) : Operation → Session (Option Outcome)
  | .read q => do
    let s ← .done (scopeOf q.params)
    let reading ←
      match q.revision with
      | some n => readAt q.name s n
      | none => readActive fallback catalog q.name s
    return some (.value reading)
  | .list q => do
    let filter ← .done ((Filter.ofParameters q.filter).mapError .input)
    let readings ← list catalog q.name filter q.coverage
    return some (.listed readings)
  | .assign _ => return none
  | .activate _ => return none

/-- The outcomes in the order of the operations, from those of each phase in their own order. -/
def arrange : List Operation → List Written → List Activated → List (Option Outcome) → List Outcome
  | .assign _ :: ops, w :: ws, as, _ :: rs => .written w :: arrange ops ws as rs
  | .activate _ :: ops, ws, a :: as, _ :: rs => .activated a :: arrange ops ws as rs
  | _ :: ops, ws, as, some r :: rs => r :: arrange ops ws as rs
  | _, _, _, _ => []

/-- The catalog, where a batch depends on it. -/
def catalogIf (needed : Bool) : Session Catalog :=
  if needed then catalog else pure ⟨[]⟩

/-- Runs a mixed batch. -/
def execute (settings : Settings) (ids : Nat → BatchId) (ops : List Operation) :
    Session (List Outcome) := do
  let needsCatalog := ops.any Operation.needsCatalog
  let assignments := ops.filterMap Operation.assignment?
  let activations := ops.filterMap Operation.activation?
  let before ← catalogIf needsCatalog
  let _ ← .done (preflight before ops)
  let written ←
    if assignments.isEmpty then pure []
    else WriteReceipt.written <$> write settings.retryPolicy ids assignments
  let activated ← Session.collect (activate settings.retryPolicy) activations
  let changed := !assignments.isEmpty || !activations.isEmpty
  let current ← if needsCatalog && changed then catalog else pure before
  let answers ← Session.collect (answer settings.fallback current) ops
  return arrange ops written activated answers

end Store

end ScopedConfig
