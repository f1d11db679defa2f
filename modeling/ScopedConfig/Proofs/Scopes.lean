import Mathlib.Data.List.Nodup
import Mathlib.Data.List.Perm.Subperm
import ScopedConfig.Proofs.Sorting
import ScopedConfig.Scope.Basic

/-!
# Scopes are sets of parameters

On well-formed scopes, which are the ones that parameter lists name (`wellFormed_of_ofParameters`),
inclusion is inclusion of the parameters (`within_iff_subset`) and sameness is their being the same
up to order (`same_iff_perm`), which the canonical form decides (`same_iff_canonical_eq`). So
sameness is an equivalence.
-/

namespace ScopedConfig

namespace Scope

variable {r s t : Scope}

/-! ## The order of pairs

Pairs of a name and a value are in a linear order, name first. The canonical form of a scope depends
on that: lists that are the same up to order have one sorted form (`sortBy_eq_iff_perm`). -/

theorem pairLe_iff {p q : String × String} :
    pairLe p q ↔ p.1 < q.1 ∨ p.1 = q.1 ∧ p.2 ≤ q.2 := by
  simp [pairLe]

theorem pairLe_total (p q : String × String) : pairLe p q ∨ pairLe q p := by
  simp only [pairLe_iff]
  by_cases lt : p.1 < q.1
  · exact .inl (.inl lt)
  · by_cases gt : q.1 < p.1
    · exact .inr (.inl gt)
    · have eq : p.1 = q.1 := String.le_antisymm gt lt
      exact (String.le_total p.2 q.2).imp (fun le => .inr ⟨eq, le⟩) (fun le => .inr ⟨eq.symm, le⟩)

theorem pairLe_trans (p q r : String × String) (hpq : pairLe p q) (hqr : pairLe q r) :
    pairLe p r := by
  rw [pairLe_iff] at *
  rcases hpq with hpq | ⟨epq, hpq⟩ <;> rcases hqr with hqr | ⟨eqr, hqr⟩
  · exact .inl (String.lt_trans hpq hqr)
  · exact .inl (eqr ▸ hpq)
  · exact .inl (epq ▸ hqr)
  · exact .inr ⟨epq.trans eqr, String.le_trans hpq hqr⟩

theorem pairLe_antisymm (p q : String × String) (hpq : pairLe p q) (hqp : pairLe q p) : p = q := by
  rw [pairLe_iff] at *
  rcases hpq with hpq | ⟨epq, hpq⟩ <;> rcases hqp with hqp | ⟨eqp, hqp⟩
  · exact absurd hqp (String.lt_asymm hpq)
  · exact absurd hpq (eqp ▸ String.lt_irrefl _)
  · exact absurd hqp (epq ▸ String.lt_irrefl _)
  · exact Prod.ext epq (String.le_antisymm hpq hqp)

/-! ## Well-formed scopes

A parameter list is read from the front, with the names taken so far at hand, and the reading breaks
off at a wildcard, at an empty name and at a name taken before. So what comes of it has different
names.

On different names a look-up finds the one pair there is (`value?_eq_some_iff`). Inclusion compares
look-ups, and the rest of the section takes it to the lists of parameters, where sameness is a
permutation and hence an equivalence. -/

/-- What is collected has different names and no empty one, if what was taken before has. -/
theorem collect_eq_ok {taken : List (String × String)} {ps : List Parameter}
    {params : List (String × String)} (h : collect taken ps = .ok params)
    (nodup : (taken.map Prod.fst).Nodup) (nonempty : ∀ p ∈ taken, p.1 ≠ "") :
    (params.map Prod.fst).Nodup ∧ ∀ p ∈ params, p.1 ≠ "" := by
  induction ps generalizing taken with
  | nil =>
      cases h
      exact ⟨nodup, nonempty⟩
  | cons p ps ih =>
      rw [collect] at h
      split at h
      · cases h
      · next value _ =>
        split at h
        · cases h
        · next named =>
          split at h
          · cases h
          · next fresh =>
            refine ih h ?_ ?_
            · -- a name that is not found is none of those taken
              have absent : ∀ q ∈ taken, q.1 ≠ p.name := by
                intro q hq eq
                refine fresh ?_
                rw [Option.isSome_iff_ne_none, Ne, List.lookup_eq_none_iff]
                intro none
                have := none q hq
                rw [eq] at this
                simp at this
              rw [List.map_append, List.nodup_append]
              refine ⟨nodup, by simp, ?_⟩
              simpa using fun a b hb => absent (a, b) hb
            · intro q hq
              rcases List.mem_append.mp hq with hq | hq
              · exact nonempty q hq
              · rw [List.mem_singleton.mp hq]
                exact named

/-- **Parameter lists name no scopes but well-formed ones.** -/
theorem wellFormed_of_ofParameters {ps : List Parameter} (h : ofParameters ps = .ok s) :
    s.WellFormed := by
  rw [ofParameters] at h
  cases hc : collect [] ps with
  | error e => rw [hc] at h; cases h
  | ok params =>
      rw [hc] at h
      cases h
      obtain ⟨nodup, nonempty⟩ := collect_eq_ok hc .nil (by simp)
      exact ⟨nodup, nonempty⟩

namespace WellFormed

/-- A read falls back to well-formed scopes. -/
theorem take (h : s.WellFormed) (k : Nat) : (Scope.mk (s.params.take k)).WellFormed :=
  ⟨h.nodup.sublist ((List.take_sublist k _).map _),
    fun p hp => h.nonempty p ((List.take_sublist k _).subset hp)⟩

theorem nodup_params (h : s.WellFormed) : s.params.Nodup := .of_map Prod.fst h.nodup

theorem of_perm (h : s.WellFormed) (perm : s.params.Perm t.params) : t.WellFormed :=
  ⟨(perm.map _).nodup_iff.mp h.nodup, fun p hp => h.nonempty p (perm.mem_iff.mpr hp)⟩

theorem canonical (h : s.WellFormed) : s.canonical.WellFormed :=
  h.of_perm (sortBy_perm pairLe s.params).symm

/-- **A look-up finds a value if it is a parameter.** Repeated names would have it find the first of
their values alone. -/
theorem value?_eq_some_iff (h : s.WellFormed) {name value : String} :
    s.value? name = some value ↔ (name, value) ∈ s.params := by
  rw [value?]
  have nodup := h.nodup
  generalize s.params = params at nodup ⊢
  induction params with
  | nil => simp
  | cons p params ih =>
      rw [List.map_cons, List.nodup_cons] at nodup
      rw [show p = (p.1, p.2) from rfl, List.lookup_cons]
      by_cases eq : name = p.1
      · subst eq
        -- the name is gone from the rest of the list
        have absent : ∀ v, (p.1, v) ∉ params := fun v hv =>
          nodup.1 (List.mem_map.mpr ⟨_, hv, rfl⟩)
        simp [absent, Prod.ext_iff, eq_comm]
      · have ne : (name == p.1) = false := by simpa using eq
        rw [ne, List.mem_cons]
        simp [ih nodup.2, Prod.ext_iff, eq]

/-- Inclusion is inclusion of the parameters. The comparison of the lengths refuses nothing more, as
different parameters are no more than those among which they are. -/
theorem within_iff_subset (hs : s.WellFormed) (ht : t.WellFormed) :
    s.within t ↔ s.params ⊆ t.params := by
  simp only [within, Bool.and_eq_true, decide_eq_true_eq, List.all_eq_true]
  constructor
  · rintro ⟨-, h⟩ p hp
    exact ht.value?_eq_some_iff.mp (h p hp)
  · intro h
    refine ⟨hs.nodup_params.length_le_of_subset h, fun p hp => ?_⟩
    exact ht.value?_eq_some_iff.mpr (h hp)

/-- Sameness is being the same up to order. -/
theorem same_iff_perm (hs : s.WellFormed) (ht : t.WellFormed) :
    s.same t ↔ s.params.Perm t.params := by
  rw [same, Bool.and_eq_true, hs.within_iff_subset ht, decide_eq_true_eq]
  constructor
  · rintro ⟨length, subset⟩
    -- different parameters, all among as many others
    exact (hs.nodup_params.subperm subset).perm_of_length_le (Nat.le_of_eq length.symm)
  · intro perm
    exact ⟨perm.length_eq, perm.subset⟩

/-- **Scopes are the same if their canonical forms are equal.** -/
theorem same_iff_canonical_eq (hs : s.WellFormed) (ht : t.WellFormed) :
    s.same t ↔ s.canonical = t.canonical := by
  rw [hs.same_iff_perm ht, Scope.canonical, Scope.canonical, Scope.mk.injEq,
    sortBy_eq_iff_perm pairLe_total pairLe_trans pairLe_antisymm]

theorem same_refl (hs : s.WellFormed) : s.same s := (hs.same_iff_perm hs).mpr (.refl _)

theorem same_symm (hs : s.WellFormed) (ht : t.WellFormed) (h : s.same t) : t.same s :=
  (ht.same_iff_perm hs).mpr ((hs.same_iff_perm ht).mp h).symm

/-- The spelling by which a scope is compared does not matter. -/
theorem same_congr_left (hr : r.WellFormed) (hs : s.WellFormed) (ht : t.WellFormed)
    (h : r.same s) : r.same t = s.same t := by
  rw [Bool.eq_iff_iff, hr.same_iff_canonical_eq ht, hs.same_iff_canonical_eq ht,
    (hr.same_iff_canonical_eq hs).mp h]

theorem canonical_idem (s : Scope) : s.canonical.canonical = s.canonical := by
  rw [Scope.canonical, Scope.mk.injEq]
  exact (sortBy_eq_iff_perm pairLe_total pairLe_trans pairLe_antisymm).mpr (sortBy_perm ..)

theorem same_canonical (hs : s.WellFormed) : s.canonical.same s :=
  (hs.canonical.same_iff_canonical_eq hs).mpr (canonical_idem s)

end WellFormed

/-- Nested are scopes of which one includes the other. -/
theorem isNested_relation_iff : (s.relation t).isNested ↔ s.within t ∨ t.within s := by
  rw [relation]
  cases s.within t <;> cases t.within s <;> simp [Relation.isNested]

/-! ## Distinct scopes

`distinct` keeps of all spellings of a scope the first. Each induction is on the scopes to come,
whatever has been seen so far. -/

/-- No spelling is made up. -/
theorem mem_distinct {scopes : List Scope} (h : s ∈ distinct scopes) : s ∈ scopes := by
  suffices ∀ seen, s ∈ scopes.foldl (fun seen s => if seen.any (·.same s) then seen else seen ++ [s])
      seen → s ∈ seen ∨ s ∈ scopes by
    simpa using this [] h
  clear h
  induction scopes with
  | nil => exact fun seen h => .inl h
  | cons x scopes ih =>
      intro seen h
      rw [List.foldl_cons] at h
      rcases ih _ h with h | h
      · split at h
        · exact .inl h
        · rcases List.mem_append.mp h with h | h
          · exact .inl h
          · exact .inr (List.mem_cons.mpr (.inl (List.mem_singleton.mp h)))
      · exact .inr (List.mem_cons_of_mem x h)

/-- Every scope is there in some spelling. -/
theorem exists_mem_distinct {scopes : List Scope} (wf : ∀ s ∈ scopes, s.WellFormed)
    (h : s ∈ scopes) : ∃ t ∈ distinct scopes, t.same s := by
  -- either the scope is still to come, or one of its spellings has been seen
  suffices ∀ seen, (s ∈ scopes ∨ ∃ t ∈ seen, t.same s) → ∃ t ∈
      scopes.foldl (fun seen s => if seen.any (·.same s) then seen else seen ++ [s]) seen,
      t.same s from this [] (.inl h)
  clear h
  induction scopes with
  | nil =>
      rintro seen (h | h)
      · cases h
      · exact h
  | cons x scopes ih =>
      intro seen h
      rw [List.foldl_cons]
      refine ih (fun s hs => wf s (List.mem_cons_of_mem x hs)) _ ?_
      rcases h with h | ⟨t, ht, same⟩
      · rcases List.mem_cons.mp h with rfl | h
        · refine .inr ?_
          split
          · next any => simpa using any
          · exact ⟨s, by simp, (wf s (by simp)).same_refl⟩
        · exact .inl h
      · refine .inr ⟨t, ?_, same⟩
        split
        · exact ht
        · exact List.mem_append_left _ ht

/-- No scope is there in two spellings. -/
theorem pairwise_distinct (scopes : List Scope) :
    (distinct scopes).Pairwise fun s t => ¬ s.same t := by
  suffices ∀ seen : List Scope, (seen.Pairwise fun s t => ¬ s.same t) →
      (scopes.foldl (fun seen s => if seen.any (·.same s) then seen else seen ++ [s]) seen).Pairwise
        fun s t => ¬ s.same t from this [] .nil
  induction scopes with
  | nil => exact fun seen h => h
  | cons x scopes ih =>
      intro seen h
      rw [List.foldl_cons]
      refine ih _ ?_
      split
      · exact h
      · next none =>
        -- a spelling is added only after the scope has been looked for among those seen
        rw [List.pairwise_append]
        refine ⟨h, List.pairwise_singleton .., fun s hs t ht same => none ?_⟩
        rw [List.mem_singleton.mp ht] at same
        exact List.any_eq_true.mpr ⟨s, hs, same⟩

end Scope

end ScopedConfig
