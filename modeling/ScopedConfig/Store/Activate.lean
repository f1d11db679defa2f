import ScopedConfig.Store.History

/-!
# Activations

An activation makes a revision of a scope the one that reads see. It is refused while the scope is
ambiguous; the commit is guarded by the epoch, so a scope that appears after the check leads to
another attempt.
-/

namespace ScopedConfig

/-- A revision to activate in the scope that parameters name; by default the working one. -/
structure Activation where
  params : List Parameter
  revision : Option Revision
  deriving DecidableEq

/-- What an activation did. -/
structure Activated where
  scope : Scope
  revision : Revision
  /-- The revision that was active before. -/
  previous : Option Revision
  deriving DecidableEq, Repr

namespace Store

/-- One attempt at an activation. -/
def attemptActivate (s : Scope) (revision : Option Revision) : Session Activated := do
  let epoch ← epoch
  let catalog ← catalog
  let _ ← .done (catalog.checkConflicts s)
  let loaded ← load s
  let n := revision.getD loaded.record.working
  let ops ← .done (loaded.stageActivation n)
  let _ ← Session.transact (.expect Layout.epochKey epoch :: ops)
  return ⟨loaded.record.scope, n, loaded.record.active⟩

def activate (policy : RetryPolicy) (a : Activation) : Session Activated := do
  let s ← .done (scopeOf a.params)
  .optimistic policy fun _ => attemptActivate s a.revision

end Store

end ScopedConfig
