import ScopedConfig.Retry
import ScopedConfig.Store.Error

/-!
# Sessions

A call on the store is a session with the backend: it asks one request after another, each depending
on the answers before it, and ends with a result. Between two requests of a session anything may
happen to the backend, and any request may fail. `Session.run` answers the requests from a table that
nobody else touches; `Session.runWith` leaves the answers to whoever runs the session.
-/

namespace ScopedConfig

/-- One call on the backend. -/
inductive Request where
  | get (key : String)
  | scan (pre : String)
  | floor (pre key : String)
  | transact (ops : List Op)
  deriving DecidableEq, Repr

namespace Request

/-- What a request is answered with if it does not fail. -/
abbrev Answer : Request → Type
  | get _ => Option Versioned
  | scan _ => List Row
  | floor _ _ => Option Row
  | transact _ => List OpResult

end Request

/-- The answer of a table to a request, and the table after it. -/
def Table.answer (t : Table) : (r : Request) → Except BackendError r.Answer × Table
  | .get key => (.ok (t.get? key), t)
  | .scan pre => (.ok (t.scan pre), t)
  | .floor pre key => (.ok (t.floor pre key), t)
  | .transact ops => t.transact ops

/-- A sequence of requests, each chosen after the answer to the one before it. -/
inductive Session (α : Type) where
  | done (result : Except StoreError α)
  | ask (request : Request) (next : Except BackendError request.Answer → Session α)

namespace Session

variable {α β : Type}

/-! ### Composition -/

/-- Goes on with the result, unless the session failed. -/
def bind : Session α → (α → Session β) → Session β
  | done (.ok a), f => f a
  | done (.error e), _ => done (.error e)
  | ask request next, f => ask request fun answer => (next answer).bind f

/-- Goes on after a failure. -/
def recover : Session α → (StoreError → Session α) → Session α
  | done (.ok a), _ => done (.ok a)
  | done (.error e), f => f e
  | ask request next, f => ask request fun answer => (next answer).recover f

instance : Monad Session where
  pure a := done (.ok a)
  bind := bind

/-- A session that fails at once. -/
def fail (e : StoreError) : Session α := done (.error e)

/-- A request whose failure is the session's failure. -/
def request (r : Request) : Session r.Answer :=
  ask r fun answer => done (answer.mapError .backend)

def get (key : String) : Session (Option Versioned) := request (.get key)

def scan (pre : String) : Session (List Row) := request (.scan pre)

def floor (pre key : String) : Session (Option Row) := request (.floor pre key)

def transact (ops : List Op) : Session (List OpResult) := request (.transact ops)

/-- One session after another, with all their results. -/
def collect (f : α → Session β) : List α → Session (List β)
  | [] => pure []
  | a :: as => do
    let b ← f a
    let bs ← collect f as
    return b :: bs

/-! ### Attempts -/

/-- At most `left` attempts, the next one being the `n`-th from zero; only a conflict leads to
another one. After the last conflict the session fails with the number of attempts made. -/
def attemptFrom (attempt : Nat → Session α) (n : Nat) : Nat → Session α
  | 0 => fail (.retriesExhausted n)
  | left + 1 =>
    (attempt n).recover fun e =>
      if e.isConflict then attemptFrom attempt (n + 1) left else fail e

/-- Attempts as a policy allows them. Every attempt reads again whatever it relies on. -/
def optimistic (policy : RetryPolicy) (attempt : Nat → Session α) : Session α :=
  attemptFrom attempt 0 policy.attempts

/-! ### Running -/

/-- The result of a session on a table that nobody else touches, and the table after it. -/
def run : Session α → Table → Except StoreError α × Table
  | done result, t => (result, t)
  | ask request next, t =>
    let (answer, t) := t.answer request
    (next answer).run t

/-- The result of a session whose requests somebody else answers. -/
def runWith {m : Type → Type} [Monad m]
    (answer : (r : Request) → m (Except BackendError r.Answer)) :
    Session α → m (Except StoreError α)
  | done result => Pure.pure result
  | ask request next => answer request >>= fun a => (next a).runWith answer

end Session

end ScopedConfig
