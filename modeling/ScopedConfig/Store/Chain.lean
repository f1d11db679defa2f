import ScopedConfig.Store.Batch

/-!
# Chained batches

Batches can be put together step by step. In a chain of writes parameters go to the last assignment;
in a chain of reads parameters and revisions go to the queries of the current group.
-/

namespace ScopedConfig

/-- Assignments under construction. -/
structure WriteChain where
  assignments : List Assignment
  deriving DecidableEq

namespace WriteChain

def start (name : String) (value : Value) : WriteChain := ⟨[⟨name, value, []⟩]⟩

/-- Adds parameters to the last assignment. -/
def withParameters (c : WriteChain) (params : List Parameter) : WriteChain :=
  match c.assignments.getLast? with
  | some a => ⟨c.assignments.dropLast ++ [{ a with params := a.params ++ params }]⟩
  | none => c

/-- Adds an assignment. -/
def andSet (c : WriteChain) (name : String) (value : Value) : WriteChain :=
  ⟨c.assignments ++ [⟨name, value, []⟩]⟩

/-- Adds the assignments of another chain. -/
def and (c d : WriteChain) : WriteChain := ⟨c.assignments ++ d.assignments⟩

def operations (c : WriteChain) : List Operation := c.assignments.map .assign

/-- Writes the assignments. -/
def execute (policy : RetryPolicy) (ids : Nat → BatchId) (c : WriteChain) : Session WriteReceipt :=
  Store.write policy ids c.assignments

end WriteChain

/-- Queries under construction; those from `groupStart` on are the current group. -/
structure ReadChain where
  queries : List Query
  groupStart : Nat
  deriving DecidableEq

namespace ReadChain

/-- A query without parameters for the active value of a property. -/
def query (name : String) : Query := ⟨name, [], none⟩

/-- One group of queries, one for each name. -/
def start (names : List String) : ReadChain := ⟨names.map query, 0⟩

/-- Changes the queries of the current group. -/
def mapGroup (c : ReadChain) (f : Query → Query) : ReadChain :=
  { c with queries := c.queries.take c.groupStart ++ (c.queries.drop c.groupStart).map f }

/-- Adds parameters to the queries of the current group. -/
def withParameters (c : ReadChain) (params : List Parameter) : ReadChain :=
  c.mapGroup fun q => { q with params := q.params ++ params }

/-- Sets the revision of the queries of the current group. -/
def atRevision (c : ReadChain) (n : Revision) : ReadChain :=
  c.mapGroup fun q => { q with revision := some n }

/-- Adds a query, which is a new group. -/
def andGet (c : ReadChain) (name : String) : ReadChain :=
  ⟨c.queries ++ [query name], c.queries.length⟩

/-- Adds the queries of another chain; its current group becomes the current one. -/
def and (c d : ReadChain) : ReadChain :=
  ⟨c.queries ++ d.queries, c.queries.length + d.groupStart⟩

def operations (c : ReadChain) : List Operation := c.queries.map .read

def reading? : Outcome → Option Reading
  | .value r => some r
  | _ => none

/-- The readings of all queries, in their order. -/
def executeAll (settings : Settings) (ids : Nat → BatchId) (c : ReadChain) :
    Session (List Reading) := do
  let outcomes ← Store.execute settings ids c.operations
  return outcomes.filterMap reading?

/-- The reading of a chain of exactly one query. -/
def execute (settings : Settings) (ids : Nat → BatchId) (c : ReadChain) : Session Reading := do
  match ← c.executeAll settings ids with
  | [reading] => return reading
  | readings => Session.fail (.notSingular readings.length)

end ReadChain

/-- The readings of a listing on its own. -/
def ListQuery.execute (settings : Settings) (ids : Nat → BatchId) (q : ListQuery) :
    Session (List Reading) := do
  let outcomes ← Store.execute settings ids [.list q]
  return outcomes.flatMap fun
    | .listed readings => readings
    | _ => []

end ScopedConfig
