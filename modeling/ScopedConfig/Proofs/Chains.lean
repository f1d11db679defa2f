import Mathlib.Order.Preorder.Chain
import ScopedConfig.Proofs.Catalogs
import ScopedConfig.Proofs.ScopeSameness

/-!
# A query has a nearest scope

A query acts on the nearest of the recorded scopes that are part of it, so there must be one: these scopes
have to be a chain. The check for it goes through the pairs of a list and stops at the first two that are
strangers to one another. What it decides does not depend on the list, only on the set of scopes
(`Catalog.checkConflicts_decides_chain`); hence neither the order of the records nor that of the query's
parameters matters, and fewer records or fewer parameters leave fewer scopes to be strangers.
-/

namespace ScopedConfig

namespace Scope

/-- All parameters of a scope are parameters of another one. -/
def PartOf (s t : Scope) : Prop := s.params ⊆ t.params

theorem PartOf.refl (s : Scope) : s.PartOf s := List.Subset.refl _

instance : Std.Refl PartOf := ⟨PartOf.refl⟩

theorem PartOf.trans {r s t : Scope} (h : r.PartOf s) (h' : s.PartOf t) : r.PartOf t :=
  List.Subset.trans h h'

/-- **Of scopes that are parts of one another there is one that all the others are part of.** -/
theorem exists_forall_partOf {scopes : List Scope} (nonempty : scopes ≠ [])
    (chain : ∀ a ∈ scopes, ∀ b ∈ scopes, a.PartOf b ∨ b.PartOf a) :
    ∃ s ∈ scopes, ∀ a ∈ scopes, a.PartOf s := by
  induction scopes with
  | nil => exact absurd rfl nonempty
  | cons s rest ih =>
      by_cases last : rest = []
      · rw [last]
        exact ⟨s, by simp, by simpa using PartOf.refl s⟩
      obtain ⟨g, hg, greatest⟩ := ih last fun a ha b hb =>
        chain a (List.mem_cons_of_mem s ha) b (List.mem_cons_of_mem s hb)
      -- The greatest of the rest is compared with the new one.
      rcases chain s List.mem_cons_self g (List.mem_cons_of_mem s hg) with sg | gs
      · exact ⟨g, List.mem_cons_of_mem s hg, List.forall_mem_cons.mpr ⟨sg, greatest⟩⟩
      · refine ⟨s, List.mem_cons_self, List.forall_mem_cons.mpr ⟨.refl s, fun a ha => ?_⟩⟩
        exact (greatest a ha).trans gs

end Scope

open Scope

namespace Catalog

variable {c c' : Catalog} {q q' s a b : Scope}

/-- The recorded scopes that are part of a query. -/
def recordedIn (c : Catalog) (q : Scope) : Set Scope :=
  {s | s ∈ c.records.map ScopeRecord.scope ∧ s.PartOf q}

/-- The records are of scopes that parameter lists name. -/
def Valid (c : Catalog) : Prop := ∀ r ∈ c.records, r.scope.WellFormed

theorem recordedIn_mono (records : c'.records ⊆ c.records) (part : q'.PartOf q) :
    c'.recordedIn q' ⊆ c.recordedIn q := fun _ ⟨recorded, within⟩ =>
  ⟨List.map_subset _ records recorded, within.trans part⟩

namespace Valid

theorem wellFormed (valid : c.Valid) (hs : s ∈ c.recordedIn q) : s.WellFormed := by
  obtain ⟨r, hr, rfl⟩ := List.mem_map.mp hs.1
  exact valid r hr

theorem mem_covered_iff (valid : c.Valid) (hq : q.WellFormed) :
    s ∈ c.covered q ↔ s ∈ c.recordedIn q := by
  rw [covered, List.mem_filter]
  refine and_congr_right fun recorded => ?_
  obtain ⟨r, hr, rfl⟩ := List.mem_map.mp recorded
  exact (valid r hr).within_iff_subset hq

theorem nested_iff (valid : c.Valid) (ha : a ∈ c.recordedIn q) (hb : b ∈ c.recordedIn q) :
    a.within b ∨ b.within a ↔ a.PartOf b ∨ b.PartOf a := by
  have ha := valid.wellFormed ha
  have hb := valid.wellFormed hb
  rw [ha.within_iff_subset hb, hb.within_iff_subset ha, PartOf, PartOf]

/-- **The check passes if and only if the recorded scopes that are part of the query are a chain.** -/
theorem checkConflicts_eq_ok_iff (valid : c.Valid) (hq : q.WellFormed) :
    c.checkConflicts q = .ok () ↔ IsChain PartOf (c.recordedIn q) := by
  have covered {s : Scope} : s ∈ c.covered q ↔ s ∈ c.recordedIn q := valid.mem_covered_iff hq
  have self : ∀ s ∈ c.covered q, s.within s := fun s hs =>
    (valid.wellFormed (covered.mp hs)).within_refl
  rw [checkConflicts_eq_ok_iff_strangers, strangers?_eq_none_iff_forall self]
  constructor
  · intro nested a ha b hb _
    exact (valid.nested_iff ha hb).mp (nested a (covered.mpr ha) b (covered.mpr hb))
  · intro chain a ha b hb
    exact (valid.nested_iff (covered.mp ha) (covered.mp hb)).mpr (chain.total (covered.mp ha) (covered.mp hb))

/-- The check fails with two of them neither of which is part of the other. -/
theorem of_checkConflicts_eq_error (valid : c.Valid) (hq : q.WellFormed) {e : StoreError}
    (h : c.checkConflicts q = .error e) : ∃ a b, e = .ambiguousScope q a b ∧
      a ∈ c.recordedIn q ∧ b ∈ c.recordedIn q ∧ ¬ a.PartOf b ∧ ¬ b.PartOf a := by
  obtain ⟨a, b, strangers, rfl⟩ := checkConflicts_eq_error_iff.mp h
  obtain ⟨ha, hb, apart⟩ := strangers_of_strangers? strangers
  rw [valid.mem_covered_iff hq] at ha hb
  rw [valid.nested_iff ha hb, not_or] at apart
  exact ⟨a, b, rfl, ha, hb, apart⟩

/-- A chain of recorded scopes has a greatest one, and only one. -/
theorem exists_nearest (valid : c.Valid) (hq : q.WellFormed) (chain : IsChain PartOf (c.recordedIn q))
    (nonempty : (c.recordedIn q).Nonempty) : ∃ s ∈ c.recordedIn q,
      ∀ a ∈ c.recordedIn q, (∀ b ∈ c.recordedIn q, b.PartOf a) ↔ a.same s := by
  have covered {s : Scope} : s ∈ c.covered q ↔ s ∈ c.recordedIn q := valid.mem_covered_iff hq
  obtain ⟨r, hr⟩ := nonempty
  obtain ⟨s, hs, greatest⟩ := exists_forall_partOf (List.ne_nil_of_mem (covered.mpr hr))
    fun a ha b hb => chain.total (covered.mp ha) (covered.mp hb)
  have hs := covered.mp hs
  refine ⟨s, hs, fun a ha => ?_⟩
  have wa := valid.wellFormed ha
  have ws := valid.wellFormed hs
  rw [wa.same_iff_within ws, wa.within_iff_subset ws, ws.within_iff_subset wa]
  constructor
  · exact fun all => ⟨greatest a (covered.mpr ha), all s hs⟩
  · exact fun ⟨_, sa⟩ b hb => (greatest b (covered.mpr hb)).trans sa

end Valid

/-- **A query passes the check if and only if it has a nearest scope, or none at all**: the recorded scopes
that are part of it are a chain. If it does not pass, the two scopes that are reported show it. The order of
records and of parameters does not count, and a part of a query that passes does so too, also with fewer
records. -/
theorem checkConflicts_decides_chain (c : Catalog) (valid : c.Valid) (q : Scope) (hq : q.WellFormed) :
    (c.checkConflicts q = .ok () ↔ IsChain PartOf (c.recordedIn q)) ∧
    (c.checkConflicts q = .ok () → (c.recordedIn q).Nonempty → ∃ s ∈ c.recordedIn q,
      ∀ a ∈ c.recordedIn q, (∀ b ∈ c.recordedIn q, b.PartOf a) ↔ a.same s) ∧
    (∀ e, c.checkConflicts q = .error e → ∃ a b, e = .ambiguousScope q a b ∧
      a ∈ c.recordedIn q ∧ b ∈ c.recordedIn q ∧ ¬ a.PartOf b ∧ ¬ b.PartOf a) ∧
    (∀ (c' : Catalog) (q' : Scope), c'.records.Perm c.records → q'.params.Perm q.params →
      (c'.checkConflicts q' = .ok () ↔ c.checkConflicts q = .ok ())) ∧
    ∀ (c' : Catalog) (q' : Scope), c'.records ⊆ c.records → q'.WellFormed → q'.PartOf q →
      c.checkConflicts q = .ok () → c'.checkConflicts q' = .ok () := by
  have passes := valid.checkConflicts_eq_ok_iff hq
  refine ⟨passes, fun ok => valid.exists_nearest hq (passes.mp ok),
    fun e => valid.of_checkConflicts_eq_error hq, fun c' q' records params => ?_,
    fun c' q' records hq' part ok => ?_⟩
  · have valid' : c'.Valid := fun r hr => valid r (records.subset hr)
    have same : c'.recordedIn q' = c.recordedIn q :=
      Set.Subset.antisymm (recordedIn_mono records.subset params.subset)
        (recordedIn_mono records.symm.subset params.symm.subset)
    rw [passes, valid'.checkConflicts_eq_ok_iff (hq.of_perm params.symm), same]
  · have valid' : c'.Valid := fun r hr => valid r (records hr)
    exact (valid'.checkConflicts_eq_ok_iff hq').mpr ((passes.mp ok).mono (recordedIn_mono records part))

/-- Two scopes that share nothing are no chain for a query that has the parameters of both; for one that has
those of one of them, this one is the nearest. -/
theorem separate_scopes_conflict :
    let c : Catalog := ⟨[⟨.global, 1, none⟩, ⟨⟨[("env", "prod")]⟩, 2, some 1⟩, ⟨⟨[("app", "a")]⟩, 1, none⟩]⟩
    ¬ IsChain PartOf (c.recordedIn ⟨[("app", "a"), ("env", "prod")]⟩) ∧
      IsChain PartOf (c.recordedIn ⟨[("env", "prod")]⟩) ∧
      ∃ s ∈ c.recordedIn ⟨[("env", "prod")]⟩, ∀ a ∈ c.recordedIn ⟨[("env", "prod")]⟩, a.PartOf s := by
  intro c
  have valid : c.Valid := List.forall_mem_cons.mpr ⟨⟨by decide, by decide⟩, List.forall_mem_cons.mpr
    ⟨⟨by decide, by decide⟩, List.forall_mem_singleton.mpr ⟨by decide, by decide⟩⟩⟩
  have fails := checkConflicts_decides_chain c valid ⟨[("app", "a"), ("env", "prod")]⟩
    ⟨by decide, by decide⟩
  have passes := checkConflicts_decides_chain c valid ⟨[("env", "prod")]⟩ ⟨by decide, by decide⟩
  have ok : c.checkConflicts ⟨[("env", "prod")]⟩ = .ok () := by decide +kernel
  obtain ⟨s, hs, nearest⟩ := passes.2.1 ok ⟨.global, List.mem_cons_self, List.nil_subset _⟩
  refine ⟨mt fails.1.mpr (by decide +kernel), passes.1.mp ok, s, hs, ?_⟩
  exact (nearest s hs).mpr (valid.wellFormed hs).same_refl

end Catalog

end ScopedConfig
