import ScopedConfig.InputError
import ScopedConfig.Sorting

/-!
# Scopes

A scope is named by parameters: pairs of a name and a value, no name twice. Two scopes are the same
if they hold the same pairs in whatever order (`Scope.same`); the order in which the parameters were
given is kept all the same, because fallback drops the last one first.
-/

namespace ScopedConfig

/-- What a parameter asks of the value. -/
inductive Pattern where
  | exactly (value : String)
  | anything
  deriving DecidableEq, Repr

/-- A named parameter. -/
structure Parameter where
  name : String
  pattern : Pattern
  deriving DecidableEq, Repr

namespace Parameter

def isWildcard (p : Parameter) : Bool := p.pattern = .anything

/-- The value that is asked for, if there is exactly one. -/
def value? (p : Parameter) : Option String :=
  match p.pattern with
  | .exactly value => some value
  | .anything => none

/-- Whether a value meets the parameter's pattern. -/
def accepts (p : Parameter) (value : String) : Bool :=
  match p.pattern with
  | .exactly wanted => wanted = value
  | .anything => true

end Parameter

/-- A scope, with its parameters in the order given. -/
structure Scope where
  params : List (String × String)
  deriving DecidableEq, Repr

namespace Scope

/-- The scope without parameters, which every scope includes. -/
def global : Scope := ⟨[]⟩

/-- The value of a parameter. -/
def value? (s : Scope) (name : String) : Option String := s.params.lookup name

/-! ### Building a scope -/

/-- The parameters of a list after some have been taken already. The first fault is reported; of the
faults of one parameter, a wildcard before an empty name before a repeated one. -/
def collect : List (String × String) → List Parameter → Except InputError (List (String × String))
  | taken, [] => .ok taken
  | taken, p :: ps =>
    match p.pattern with
    | .anything => .error (.wildcard p.name)
    | .exactly value =>
      if p.name = "" then .error .emptyName
      else if (taken.lookup p.name).isSome then .error (.repeatedName p.name)
      else collect (taken ++ [(p.name, value)]) ps

/-- The scope that a list of parameters names. -/
def ofParameters (ps : List Parameter) : Except InputError Scope := (collect [] ps).map Scope.mk

/-- The scope's parameters as a list that names it. -/
def toParameters (s : Scope) : List Parameter := s.params.map fun p => ⟨p.1, .exactly p.2⟩

/-- Names are unique and not empty. Every scope that `ofParameters` builds is well formed. -/
structure WellFormed (s : Scope) : Prop where
  nodup : (s.params.map Prod.fst).Nodup
  nonempty : ∀ p ∈ s.params, p.1 ≠ ""

/-! ### Inclusion -/

/-- Whether every parameter of `s` is one of `t`. -/
def within (s t : Scope) : Bool :=
  s.params.length ≤ t.params.length && s.params.all fun p => t.value? p.1 = some p.2

/-- Whether two scopes hold the same parameters, in any order. -/
def same (s t : Scope) : Bool := s.params.length = t.params.length && s.within t

end Scope

/-- How two scopes relate by inclusion. -/
inductive Relation where
  | equal
  | subset
  | superset
  | disjoint
  deriving DecidableEq, Repr

/-- Whether one of the two scopes includes the other. -/
def Relation.isNested : Relation → Bool
  | .disjoint => false
  | _ => true

namespace Scope

def relation (s t : Scope) : Relation :=
  match s.within t, t.within s with
  | true, true => .equal
  | true, false => .subset
  | false, true => .superset
  | false, false => .disjoint

/-- The scopes that a read may fall back to, nearest first: the scope itself, then without its last
parameter, and so on down to the global scope. -/
def fallbacks (s : Scope) : List Scope :=
  (List.range (s.params.length + 1)).map fun dropped => ⟨s.params.take (s.params.length - dropped)⟩

/-! ### Canonical form -/

/-- The order of pairs: by name, then by value, each by code points. -/
def pairLe (p q : String × String) : Bool := p.1 < q.1 || (p.1 = q.1 && p.2 ≤ q.2)

/-- The scope with its parameters in order. -/
def canonical (s : Scope) : Scope := ⟨sortBy pairLe s.params⟩

/-- The scope as a text, in canonical form. -/
def text (s : Scope) : String :=
  "\x7b" ++ ", ".intercalate (s.canonical.params.map fun p => p.1 ++ "=" ++ p.2) ++ "\x7d"

/-- The scopes of a list, each once, as it is spelt first. -/
def distinct (scopes : List Scope) : List Scope :=
  scopes.foldl (fun seen s => if seen.any (·.same s) then seen else seen ++ [s]) []

end Scope

end ScopedConfig
