import ScopedConfig.Retry
import ScopedConfig.Text.Digits

/-!
# Settings of a store
-/

namespace ScopedConfig

/-- Where a read looks when the scope it names has no active value. -/
inductive Fallback where
  /-- Nowhere else. -/
  | none
  /-- In the scopes that are left when parameters are dropped, the last one first. -/
  | lookup
  deriving DecidableEq, Repr

def Fallback.name : Fallback → String
  | .none => "none"
  | .lookup => "lookup"

def Fallback.ofName? (s : String) : Option Fallback :=
  if s = "none" then some .none else if s = "lookup" then some .lookup else Option.none

structure Settings where
  fallback : Fallback := .none
  /-- How often a write or an activation is attempted before it is given up. -/
  maxWriteRetries : UInt32 := 16
  /-- The wait after the first conflict, in milliseconds. -/
  retryBaseDelay : UInt64 := 1
  /-- The longest wait, in milliseconds. -/
  retryMaxDelay : UInt64 := 50
  /-- How long a locked backend is waited for, in milliseconds. -/
  busyTimeout : UInt64 := 5000
  deriving DecidableEq, Repr

/-- Why settings cannot be used. -/
inductive SettingsError where
  | noAttempts
  | baseAboveMax (base max : UInt64)
  deriving DecidableEq, Repr

def SettingsError.message : SettingsError → String
  | .noAttempts => "max_write_retries must be at least 1"
  | .baseAboveMax base max =>
    "retry_base_delay_ms (" ++ Text.decimalText base.toNat ++ ") exceeds retry_max_delay_ms (" ++
      Text.decimalText max.toNat ++ ")"

namespace Settings

/-- What is wrong with settings, if anything is. -/
def fault? (s : Settings) : Option SettingsError :=
  if s.maxWriteRetries = 0 then some .noAttempts
  else if s.retryMaxDelay < s.retryBaseDelay then
    some (.baseAboveMax s.retryBaseDelay s.retryMaxDelay)
  else none

def retryPolicy (s : Settings) : RetryPolicy :=
  ⟨s.maxWriteRetries, .ofMilliseconds s.retryBaseDelay, .ofMilliseconds s.retryMaxDelay⟩

end Settings

end ScopedConfig
