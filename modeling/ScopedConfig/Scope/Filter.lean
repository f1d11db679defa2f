import ScopedConfig.Scope.Basic

/-!
# Filters

A filter picks scopes by their parameters; its terms may leave a value open. In exact mode a scope
has the filter's names and no others, in covering mode it may have more.
-/

namespace ScopedConfig

/-- A list of parameters, no name twice. -/
structure Filter where
  terms : List Parameter
  deriving DecidableEq, Repr

/-- How closely a scope has to fit a filter. -/
inductive Coverage where
  | exactly
  | covering
  deriving DecidableEq, Repr

namespace Filter

/-- The terms of a list after some have been taken already. The first fault is reported; of the
faults of one term, an empty name before a repeated one. -/
def collect : List Parameter → List Parameter → Except InputError (List Parameter)
  | taken, [] => .ok taken
  | taken, p :: ps =>
    if p.name = "" then .error .emptyName
    else if taken.any fun t => t.name = p.name then .error (.repeatedName p.name)
    else collect (taken ++ [p]) ps

/-- The filter that a list of parameters writes. -/
def ofParameters (ps : List Parameter) : Except InputError Filter := (collect [] ps).map Filter.mk

/-- Whether a scope has a fitting value for every term. -/
def covers (f : Filter) (s : Scope) : Bool :=
  f.terms.all fun t => (s.value? t.name).any t.accepts

/-- Whether, moreover, the scope has no other parameters. -/
def fits (f : Filter) (s : Scope) : Bool :=
  s.params.length = f.terms.length && f.covers s

def admits (f : Filter) : Coverage → Scope → Bool
  | .exactly, s => f.fits s
  | .covering, s => f.covers s

end Filter

end ScopedConfig
