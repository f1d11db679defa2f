import ScopedConfig.Powers

/-!
# Durations and backoff

How long to wait after a conflict: the base duration, doubled after every further one, at most the
cap. Durations are whole seconds and nanoseconds; a product that does not fit is the longest one.
-/

namespace ScopedConfig

/-- A span of time of at most `2 ^ 64 - 1` seconds and 999999999 nanoseconds. -/
structure Duration where
  seconds : Nat
  nanoseconds : Nat
  seconds_lt : seconds < 2 ^ 64
  nanoseconds_lt : nanoseconds < 10 ^ 9
  deriving DecidableEq, Repr

namespace Duration

def zero : Duration := ⟨0, 0, by decide, by decide⟩

/-- The longest duration. -/
def longest : Duration := ⟨2 ^ 64 - 1, 10 ^ 9 - 1, by decide, by decide⟩

def ofMilliseconds (n : UInt64) : Duration :=
  ⟨n.toNat / 1000, n.toNat % 1000 * 10 ^ 6, by have := n.toNat_lt; omega, by omega⟩

def ofNanoseconds (n : UInt64) : Duration :=
  ⟨n.toNat / 10 ^ 9, n.toNat % 10 ^ 9, by have := n.toNat_lt; omega, by omega⟩

/-- The duration counted in nanoseconds. -/
def toNanoseconds (d : Duration) : Nat := d.seconds * 10 ^ 9 + d.nanoseconds

/-- A multiple of a duration, or the longest one where it does not fit. -/
def times (d : Duration) (k : Nat) : Duration :=
  let nanoseconds := d.nanoseconds * k
  let seconds := d.seconds * k + nanoseconds / 10 ^ 9
  if h : seconds < 2 ^ 64 then
    ⟨seconds, nanoseconds % 10 ^ 9, h, Nat.mod_lt _ (by decide)⟩
  else longest

/-- Whether a duration is at most as long as another one. -/
def le (d e : Duration) : Bool :=
  d.seconds < e.seconds || (d.seconds = e.seconds && d.nanoseconds ≤ e.nanoseconds)

/-- The shorter of two durations. -/
def min (d e : Duration) : Duration := if d.le e then d else e

end Duration

/-- How often a conflicted attempt is made, and how long to wait in between. -/
structure RetryPolicy where
  maxAttempts : UInt32
  base : Duration
  cap : Duration

namespace RetryPolicy

/-- Attempts without waiting. -/
def immediate (maxAttempts : UInt32) : RetryPolicy := ⟨maxAttempts, .zero, .zero⟩

/-- The number of attempts that are made: always at least one. -/
def attempts (p : RetryPolicy) : Nat := Nat.max 1 p.maxAttempts.toNat

/-- How long to wait after the `attempt`-th conflict, counting from one. The doubling ends after
thirty-one times. -/
def delay (p : RetryPolicy) (attempt : UInt32) : Duration :=
  (p.base.times (2 ^ Nat.min (attempt.toNat - 1) 31)).min p.cap

end RetryPolicy

end ScopedConfig
