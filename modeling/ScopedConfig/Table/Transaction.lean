import ScopedConfig.Table.Range
import ScopedConfig.Text.Digits

/-!
# Transactions

A transaction is a list of operations that happen together or not at all. Each sees the puts before
it; one that expects another version than it finds ends the transaction.
-/

namespace ScopedConfig

/-- Why a backend call failed. -/
inductive BackendError where
  /-- The backend cannot be reached or is locked; nothing was done. -/
  | unavailable (reason : String)
  /-- A key was not at the version that a transaction expected. -/
  | conditionFailed (key : String) (expected actual : Option Nat)
  /-- Any other failure of the database underneath. -/
  | database (reason : String)
  deriving DecidableEq, Repr

namespace BackendError

/-- A version as error texts show it. -/
def versionText : Option Nat → String
  | none => "None"
  | some n => "Some(" ++ Text.decimalText n ++ ")"

def message : BackendError → String
  | .unavailable reason => "backend unavailable: " ++ reason
  | .conditionFailed key expected actual =>
    "condition failed on " ++ key ++ ": expected version " ++ versionText expected ++ ", found " ++
      versionText actual
  | .database reason => "sqlite error: " ++ reason

/-- Whether the call may simply be made again. -/
def isUnavailable : BackendError → Bool
  | .unavailable _ => true
  | _ => false

/-- Whether another transaction got in between. -/
def isConflict : BackendError → Bool
  | .conditionFailed .. => true
  | _ => false

end BackendError

/-- One operation of a transaction. -/
inductive Op where
  | get (key : String)
  | put (key : String) (value : Bytes)
  /-- Ends the transaction unless the key is at the given version, or absent where none is given. -/
  | expect (key : String) (version : Option Nat)
  | scan (pre : String)
  deriving DecidableEq, Repr

/-- Whether an operation changes the table. -/
def Op.isPut : Op → Bool
  | .put .. => true
  | _ => false

/-- What an operation answers. -/
inductive OpResult where
  | value (found : Option Versioned)
  | written (version : Nat)
  | matched
  | rows (found : List Row)
  deriving DecidableEq, Repr

namespace Table

/-- The version that a key is at. -/
def version? (t : Table) (key : String) : Option Nat := (t.get? key).map Versioned.version

/-- One operation, with the table after it. -/
def apply (t : Table) : Op → Except BackendError (OpResult × Table)
  | .get key => .ok (.value (t.get? key), t)
  | .put key value => .ok (.written ((t.version? key).getD 0 + 1), t.put key value)
  | .expect key version =>
    if t.version? key = version then .ok (.matched, t)
    else .error (.conditionFailed key version (t.version? key))
  | .scan pre => .ok (.rows (t.scan pre), t)

/-- Operations one after another, with the table after the last one. -/
def applyAll (t : Table) : List Op → Except BackendError (List OpResult × Table)
  | [] => .ok ([], t)
  | op :: ops => do
    let (result, t) ← t.apply op
    let (results, t) ← t.applyAll ops
    return (result :: results, t)

/-- A transaction: the results and the table after it. A failed one leaves the table as it was. -/
def transact (t : Table) (ops : List Op) : Except BackendError (List OpResult) × Table :=
  match t.applyAll ops with
  | .ok (results, t) => (.ok results, t)
  | .error e => (.error e, t)

end Table

end ScopedConfig
