import ScopedConfig.Proofs.Parameters

/-!
# What filters select

`Filter.Selects` says what a filter asks of a scope: a fitting value for each of its terms and, in exact
mode, no parameter that it does not name. The test for exact mode goes through the terms only and compares
the numbers of parameters. As no name stands twice, neither in the filter nor in the scope, that is the same
(`Filter.admits_iff_selects`).
-/

namespace ScopedConfig

open Parameter

variable {f : Filter} {s : Scope} {ps qs : List Parameter} {coverage : Coverage}

theorem Parameter.accepts_iff {p : Parameter} {value : String} :
    p.accepts value ↔ p.pattern = .anything ∨ p.pattern = .exactly value := by
  rw [accepts]
  cases p.pattern <;> simp

namespace Filter

/-- The scope has a fitting value for each term of the filter and, if it is to fit exactly, no other
parameters. -/
structure Selects (f : Filter) (coverage : Coverage) (s : Scope) : Prop where
  fitting : ∀ p ∈ f.terms, ∃ value, (p.name, value) ∈ s.params ∧
    (p.pattern = .anything ∨ p.pattern = .exactly value)
  named : coverage = .exactly → ∀ q ∈ s.params, ∃ p ∈ f.terms, p.name = q.1

theorem covers_iff (hs : s.WellFormed) : f.covers s ↔ ∀ p ∈ f.terms, ∃ value,
    (p.name, value) ∈ s.params ∧ (p.pattern = .anything ∨ p.pattern = .exactly value) := by
  rw [covers, List.all_eq_true]
  refine forall₂_congr fun p _ => ?_
  rw [Option.any_eq_true]
  simp only [hs.value?_eq_some_iff, accepts_iff]

/-- **As many parameters as terms are the same names**, if the terms are covered. -/
theorem fits_iff (hf : Named f.terms) (hs : s.WellFormed) :
    f.fits s ↔ f.covers s ∧ ∀ q ∈ s.params, ∃ p ∈ f.terms, p.name = q.1 := by
  rw [fits, Bool.and_eq_true, decide_eq_true_eq, and_comm]
  refine and_congr_right fun covers => ?_
  have names : f.terms.map Parameter.name ⊆ s.params.map Prod.fst := by
    intro name mem
    obtain ⟨p, hp, rfl⟩ := List.mem_map.mp mem
    obtain ⟨value, hv, -⟩ := (covers_iff hs).mp covers p hp
    exact List.mem_map.mpr ⟨_, hv, rfl⟩
  constructor
  · intro length q hq
    have perm : (f.terms.map Parameter.name).Perm (s.params.map Prod.fst) :=
      (hf.nodup.subperm names).perm_of_length_le (by simp [length])
    exact List.mem_map.mp (perm.mem_iff.mpr (List.mem_map_of_mem hq))
  · intro named
    have back : s.params.map Prod.fst ⊆ f.terms.map Parameter.name := by
      intro name mem
      obtain ⟨q, hq, rfl⟩ := List.mem_map.mp mem
      exact List.mem_map.mpr (named q hq)
    have le := hs.nodup.length_le_of_subset back
    have ge := hf.nodup.length_le_of_subset names
    simp only [List.length_map] at le ge
    exact Nat.le_antisymm le ge

/-- **A filter admits the scopes that it selects.** -/
theorem admits_iff_selects (hf : Named f.terms) (hs : s.WellFormed) :
    f.admits coverage s ↔ f.Selects coverage s := by
  cases coverage with
  | exactly =>
      rw [admits, fits_iff hf hs, covers_iff hs]
      exact ⟨fun ⟨fitting, named⟩ => ⟨fitting, fun _ => named⟩,
        fun selects => ⟨selects.fitting, selects.named rfl⟩⟩
  | covering =>
      rw [admits, covers_iff hs]
      exact ⟨fun fitting => ⟨fitting, nofun⟩, Selects.fitting⟩

/-- The order of its terms makes no difference to what a filter admits. -/
theorem exists_ofParameters_of_perm (valid : Named ps) (perm : ps.Perm qs) :
    ∃ f f', ofParameters ps = .ok f ∧ ofParameters qs = .ok f' ∧
      ∀ coverage s, f.admits coverage s = f'.admits coverage s := by
  have valid' : Named qs :=
    ⟨fun p hp => valid.nonempty p (perm.mem_iff.mpr hp), (perm.map _).nodup_iff.mp valid.nodup⟩
  refine ⟨⟨ps⟩, ⟨qs⟩, ofParameters_eq_ok_iff.mpr ⟨valid, rfl⟩, ofParameters_eq_ok_iff.mpr ⟨valid', rfl⟩,
    fun coverage s => ?_⟩
  cases coverage <;> simp only [admits, fits, covers, perm.length_eq, perm.all_eq]

end Filter

end ScopedConfig
