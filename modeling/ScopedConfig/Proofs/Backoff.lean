import Mathlib.Tactic.Ring
import ScopedConfig.Settings.Basic

/-!
# Waiting times in nanoseconds

Durations are compared and multiplied in seconds and nanoseconds. Counted in nanoseconds a comparison is
that of the numbers (`Duration.le_iff`) and a multiple is the product, unless that is longer than the
longest duration (`Duration.toNanoseconds_times`). A wait is bounded by its cap, which is never longer
than that, so no wait shows where a product was cut off (`RetryPolicy.toNanoseconds_delay`).
-/

namespace ScopedConfig

/-! ## Durations

A duration has fewer than a second of nanoseconds beside its seconds, so it is a number written to
the base of a second. Sums of that kind are compared like their digits, and the carry of a product
goes from the nanoseconds to the seconds. -/

namespace Duration

variable {d e : Duration}

@[simp] theorem toNanoseconds_ofMilliseconds (n : UInt64) :
    (ofMilliseconds n).toNanoseconds = n.toNat * 10 ^ 6 := by
  simp only [toNanoseconds, ofMilliseconds]
  omega

theorem toNanoseconds_lt (d : Duration) : d.toNanoseconds < 2 ^ 64 * 10 ^ 9 := by
  have seconds := d.seconds_lt
  have nanoseconds := d.nanoseconds_lt
  unfold toNanoseconds
  omega

theorem toNanoseconds_longest : longest.toNanoseconds = 2 ^ 64 * 10 ^ 9 - 1 := by
  decide

theorem toNanoseconds_le_longest (d : Duration) : d.toNanoseconds ≤ longest.toNanoseconds := by
  have lt := d.toNanoseconds_lt
  rw [toNanoseconds_longest]
  omega

theorem toNanoseconds_injective : Function.Injective toNanoseconds := by
  intro d e same
  have hd := d.nanoseconds_lt
  have he := e.nanoseconds_lt
  unfold toNanoseconds at same
  -- less than a second of nanoseconds on either side, so the digits are determined
  have seconds : d.seconds = e.seconds := by omega
  have nanoseconds : d.nanoseconds = e.nanoseconds := by omega
  cases d
  cases e
  simp_all

/-- **Durations are in the order of their nanoseconds.** -/
theorem le_iff : d.le e ↔ d.toNanoseconds ≤ e.toNanoseconds := by
  have hd := d.nanoseconds_lt
  have he := e.nanoseconds_lt
  simp only [le, toNanoseconds, Bool.or_eq_true, Bool.and_eq_true, decide_eq_true_eq]
  omega

theorem toNanoseconds_min (d e : Duration) :
    (Duration.min d e).toNanoseconds = Min.min d.toNanoseconds e.toNanoseconds := by
  unfold Duration.min
  split
  · next h => exact (Nat.min_eq_left (le_iff.mp h)).symm
  · next h => exact (Nat.min_eq_right (Nat.le_of_not_le fun le => h (le_iff.mpr le))).symm

/-- **A multiple is the product, at most the longest duration.** -/
theorem toNanoseconds_times (d : Duration) (k : Nat) :
    (d.times k).toNanoseconds = Min.min (d.toNanoseconds * k) longest.toNanoseconds := by
  -- whole seconds among the multiplied nanoseconds are carried over
  have carry : (d.seconds * k + d.nanoseconds * k / 10 ^ 9) * 10 ^ 9 + d.nanoseconds * k % 10 ^ 9 =
      d.toNanoseconds * k := by
    have whole := Nat.div_add_mod (d.nanoseconds * k) (10 ^ 9)
    have product : d.toNanoseconds * k = d.seconds * k * 10 ^ 9 + d.nanoseconds * k := by
      unfold toNanoseconds
      ring
    omega
  by_cases fits : d.seconds * k + d.nanoseconds * k / 10 ^ 9 < 2 ^ 64
  · have exact : (d.times k).toNanoseconds = d.toNanoseconds * k := by
      rw [← carry]
      simp only [times, dif_pos fits, toNanoseconds]
    rw [exact, Nat.min_eq_left]
    rw [← exact]
    exact toNanoseconds_le_longest _
  · -- too many seconds for the type: the product is at least one more than the longest duration
    have cut : d.times k = longest := by
      simp only [times, dif_neg fits]
    rw [cut, Nat.min_eq_right]
    rw [toNanoseconds_longest]
    omega

end Duration

/-! ## Waits

The exponent is the number of conflicts less one, but not less than zero and not more than 31. So
the factor is a power of two that fits into the type it is computed in, for any number of conflicts
whatever. -/

namespace RetryPolicy

variable {p : RetryPolicy} {m n : UInt32}

/-- How often the base is doubled after the `n`-th conflict. -/
def doublings (n : UInt32) : Nat := min (max n.toNat 1 - 1) 31

theorem doublings_le (n : UInt32) : doublings n ≤ 31 := Nat.min_le_right _ _

/-- More conflicts double no less often. -/
theorem doublings_mono (h : m ≤ n) : doublings m ≤ doublings n := by
  have le : m.toNat ≤ n.toNat := UInt32.le_iff_toNat_le.mp h
  unfold doublings
  omega

/-- The factor is a number of 32 bits, and the nanoseconds times it one of 64. -/
theorem factor_lt (d : Duration) (n : UInt32) :
    2 ^ doublings n < 2 ^ 32 ∧ d.nanoseconds * 2 ^ doublings n < 2 ^ 64 := by
  have factor : 2 ^ doublings n ≤ 2 ^ 31 := Nat.pow_le_pow_right (by decide) (doublings_le n)
  have product := Nat.mul_le_mul (Nat.le_of_lt d.nanoseconds_lt) factor
  omega

/-- The wait as a multiple of the base, cut off at the cap. -/
theorem delay_eq (p : RetryPolicy) (n : UInt32) :
    p.delay n = (p.base.times (2 ^ doublings n)).min p.cap := by
  have conflicts : max n.toNat 1 - 1 = n.toNat - 1 := by omega
  rw [delay, doublings, conflicts]

/-- **A wait is the doubled base or the cap, whichever is shorter.** -/
theorem toNanoseconds_delay (p : RetryPolicy) (n : UInt32) :
    (p.delay n).toNanoseconds = min (p.base.toNanoseconds * 2 ^ doublings n) p.cap.toNanoseconds := by
  have cap := p.cap.toNanoseconds_le_longest
  rw [delay_eq, Duration.toNanoseconds_min, Duration.toNanoseconds_times]
  omega

theorem delay_le_cap (p : RetryPolicy) (n : UInt32) : (p.delay n).le p.cap := by
  rw [Duration.le_iff, toNanoseconds_delay]
  exact Nat.min_le_right _ _

/-- **Waits do not get shorter.** -/
theorem delay_mono (p : RetryPolicy) (h : m ≤ n) : (p.delay m).le (p.delay n) := by
  rw [Duration.le_iff, toNanoseconds_delay, toNanoseconds_delay]
  have factor : 2 ^ doublings m ≤ 2 ^ doublings n := Nat.pow_le_pow_right (by decide) (doublings_mono h)
  have product := Nat.mul_le_mul_left p.base.toNanoseconds factor
  omega

/-- The first wait is the base, if the cap allows for it. -/
theorem delay_one (h : p.base.le p.cap) : p.delay 1 = p.base := by
  apply Duration.toNanoseconds_injective
  rw [toNanoseconds_delay, show doublings 1 = 0 from rfl, Nat.pow_zero, Nat.mul_one]
  exact Nat.min_eq_left (Duration.le_iff.mp h)

end RetryPolicy

/-- Settings that pass the check have a cap that is not below the base. -/
theorem Settings.base_le_cap {s : Settings} (h : s.fault? = none) :
    s.retryPolicy.base.le s.retryPolicy.cap := by
  unfold fault? at h
  split at h
  · cases h
  · split at h
    · cases h
    · next ordered =>
      have le : s.retryBaseDelay.toNat ≤ s.retryMaxDelay.toNat :=
        UInt64.le_iff_toNat_le.mp (UInt64.not_lt.mp ordered)
      simp only [Duration.le_iff, retryPolicy, Duration.toNanoseconds_ofMilliseconds]
      omega

namespace RetryPolicy

/-- **Waits are the exact powers of two times the base, up to the cap.** No step of the computation goes
beyond its numbers, the wait never exceeds the cap and never gets shorter, and with settings that have no
fault the first wait is the base that is set. -/
theorem delay_is_capped_doubling (p : RetryPolicy) (n : UInt32) :
    (p.delay n).toNanoseconds =
      min (p.base.toNanoseconds * 2 ^ min (max n.toNat 1 - 1) 31) p.cap.toNanoseconds ∧
    2 ^ min (max n.toNat 1 - 1) 31 < 2 ^ 32 ∧
    p.base.nanoseconds * 2 ^ min (max n.toNat 1 - 1) 31 < 2 ^ 64 ∧
    (p.delay n).le p.cap ∧
    (∀ m, m ≤ n → (p.delay m).le (p.delay n)) ∧
    ∀ s : Settings, s.fault? = none →
      s.retryPolicy.delay 1 = .ofMilliseconds s.retryBaseDelay ∧
      (s.retryPolicy.delay 1).toNanoseconds = s.retryBaseDelay.toNat * 10 ^ 6 := by
  obtain ⟨factor, product⟩ := factor_lt p.base n
  refine ⟨p.toNanoseconds_delay n, factor, product, p.delay_le_cap n, fun m h => p.delay_mono h,
    fun s valid => ?_⟩
  have first : s.retryPolicy.delay 1 = .ofMilliseconds s.retryBaseDelay := delay_one (s.base_le_cap valid)
  exact ⟨first, by rw [first, Duration.toNanoseconds_ofMilliseconds]⟩

/-- Of the waits that are set by default the first is a millisecond, and the seventh the cap. -/
theorem default_waits :
    (({} : Settings).retryPolicy.delay 1).toNanoseconds = 10 ^ 6 ∧
    (({} : Settings).retryPolicy.delay 7).toNanoseconds = 50 * 10 ^ 6 ∧
    (({} : Settings).retryPolicy.delay 1).le (({} : Settings).retryPolicy.delay 7) := by
  obtain ⟨wait, -, -, -, longer, first⟩ := delay_is_capped_doubling ({} : Settings).retryPolicy 7
  obtain ⟨-, base⟩ := first {} (by decide)
  refine ⟨base, ?_, longer 1 (by decide)⟩
  rw [wait]
  decide

end RetryPolicy

end ScopedConfig
