import ScopedConfig.Proofs.Scopes
import ScopedConfig.Store.Write

/-!
# Placed assignments

`place_eq_ok_iff` says when the assignments of a batch can be placed: each names a scope, and no two
set the same property in the same scope. The scopes of the batch are then taken once each, in the
spelling that comes first (`Scope.find?_distinct`), and no two of them have a canonical form in common.
-/

namespace ScopedConfig

open Store

/-! ## Distinct scopes

Two assignments may spell one scope differently. Its record is to be loaded and advanced once for
both, so a batch goes by its distinct scopes, and each assignment has to find its scope among them
again. -/

namespace Scope

/-- A scope is spelt among the distinct ones as it is spelt first. -/
theorem find?_distinct {s : Scope} {scopes : List Scope} (hs : s.WellFormed)
    (wf : ∀ r ∈ scopes, r.WellFormed) :
    (distinct scopes).find? (·.same s) = scopes.find? (·.same s) := by
  suffices ∀ seen : List Scope, (∀ r ∈ seen, r.WellFormed) →
      (scopes.foldl (fun seen s => if seen.any (·.same s) then seen else seen ++ [s]) seen).find?
        (·.same s) = (seen ++ scopes).find? (·.same s) from this [] (by simp)
  induction scopes with
  | nil => exact fun seen _ => by rw [List.foldl_nil, List.append_nil]
  | cons x scopes ih =>
      intro seen hseen
      obtain ⟨hx, wf⟩ := List.forall_mem_cons.mp wf
      rw [List.foldl_cons]
      by_cases known : seen.any (·.same x)
      · rw [if_pos known, ih wf seen hseen, List.find?_append, List.find?_append, List.find?_cons]
        obtain ⟨y, hy, same⟩ := List.any_eq_true.mp known
        cases hxs : x.same s with
        | false => rfl
        | true =>
            -- the spelling before `x` stands for the same scope, so the search ends there
            have found : (seen.find? (·.same s)).isSome := by
              rw [List.find?_isSome]
              exact ⟨y, hy, (hseen y hy).same_congr_left hx hs same ▸ hxs⟩
            obtain ⟨r, hr⟩ := Option.isSome_iff_exists.mp found
            rw [hr]
            rfl
      · -- a scope that is not among those seen is kept
        have hseen' : ∀ r ∈ seen ++ [x], r.WellFormed := by
          intro r hr
          rcases List.mem_append.mp hr with hr | hr
          · exact hseen r hr
          · rw [List.mem_singleton.mp hr]
            exact hx
        rw [if_neg known, ih wf _ hseen', List.append_assoc]
        rfl

/-- No two of the distinct scopes have a canonical form in common. -/
theorem nodup_canonical_distinct {scopes : List Scope} (wf : ∀ r ∈ scopes, r.WellFormed) :
    ((distinct scopes).map canonical).Nodup := by
  refine List.pairwise_map.mpr ((pairwise_distinct scopes).imp_of_mem fun hr hs ne eq => ne ?_)
  exact ((wf _ (mem_distinct hr)).same_iff_canonical_eq (wf _ (mem_distinct hs))).mpr eq

theorem mem_canonical_distinct {s : Scope} {scopes : List Scope} (wf : ∀ r ∈ scopes, r.WellFormed) :
    s ∈ (distinct scopes).map canonical ↔ ∃ r ∈ scopes, r.canonical = s := by
  rw [List.mem_map]
  constructor
  · rintro ⟨r, hr, rfl⟩
    exact ⟨r, mem_distinct hr, rfl⟩
  · rintro ⟨r, hr, rfl⟩
    obtain ⟨q, hq, same⟩ := exists_mem_distinct wf hr
    exact ⟨q, hq, ((wf q (mem_distinct hq)).same_iff_canonical_eq (wf r hr)).mp same⟩

end Scope

/-! ## Placing

Assignments are placed one after another, each against those placed before. The induction is on the
assignments to come. It states the result for any that have been placed already, and keeps them
apart from the new ones. -/

namespace Store

/-- The second one does not set what the first one sets. -/
def Placed.Apart (p q : Placed) : Prop :=
  ¬ (p.assignment.name = q.assignment.name ∧ p.scope.same q.scope)

theorem Placed.clashes_iff {p q : Placed} : p.clashes q.assignment.name q.scope ↔ ¬ p.Apart q := by
  rw [clashes, Apart, not_not, Bool.and_eq_true, decide_eq_true_eq]

/-- **What comes of placing assignments after others.** -/
theorem placeAfter_eq_ok_iff {before placed : List Placed} {as : List Assignment} :
    placeAfter before as = .ok placed ↔ ∃ rest, placed = before ++ rest ∧
      rest.map Placed.assignment = as ∧ (∀ p ∈ rest, scopeOf p.assignment.params = .ok p.scope) ∧
      rest.Pairwise Placed.Apart ∧ ∀ p ∈ before, ∀ q ∈ rest, p.Apart q := by
  induction as generalizing before with
  | nil =>
      rw [placeAfter]
      constructor
      · intro h
        cases h
        exact ⟨[], by simp⟩
      · rintro ⟨rest, rfl, assignments, -⟩
        rw [List.map_eq_nil_iff.mp assignments, List.append_nil]
  | cons a as ih =>
      rw [placeAfter]
      cases hs : scopeOf a.params with
      | error e =>
          constructor
          · intro h
            cases h
          · rintro ⟨rest, -, assignments, scopes, -⟩
            obtain ⟨q, rest, rfl, rfl, -⟩ := List.map_eq_cons_iff.mp assignments
            rw [scopes q (by simp)] at hs
            cases hs
      | ok s =>
          by_cases clash : before.any (·.clashes a.name s)
          · -- refused, and rightly: `before` sets the property in that scope already
            simp only [clash, if_true]
            constructor
            · intro h
              cases h
            · rintro ⟨rest, -, assignments, scopes, -, apart⟩
              obtain ⟨q, rest, rfl, rfl, -⟩ := List.map_eq_cons_iff.mp assignments
              obtain ⟨p, hp, clashes⟩ := List.any_eq_true.mp clash
              cases hs.symm.trans (scopes q (by simp))
              exact absurd (apart p hp q (by simp)) (Placed.clashes_iff.mp clashes)
          · simp only [clash, if_false, Bool.false_eq_true]
            rw [ih]
            constructor
            · rintro ⟨rest, rfl, rfl, scopes, apart, across⟩
              refine ⟨⟨s, a⟩ :: rest, by simp, rfl, List.forall_mem_cons.mpr ⟨hs, scopes⟩,
                List.pairwise_cons.mpr ⟨fun q hq => across ⟨s, a⟩ (by simp) q hq, apart⟩,
                fun p hp q hq => ?_⟩
              rcases List.mem_cons.mp hq with rfl | hq
              · -- the new one was compared with all that had been placed
                have no_clash : ¬ p.clashes a.name s := fun h => clash (List.any_eq_true.mpr ⟨p, hp, h⟩)
                exact not_not.mp (mt (Placed.clashes_iff (q := ⟨s, a⟩)).mpr no_clash)
              · exact across p (List.mem_append_left _ hp) q hq
            · rintro ⟨rest, rfl, assignments, scopes, apart, across⟩
              obtain ⟨q, rest, rfl, rfl, rfl⟩ := List.map_eq_cons_iff.mp assignments
              obtain ⟨hq, scopes⟩ := List.forall_mem_cons.mp scopes
              obtain ⟨first, apart⟩ := List.pairwise_cons.mp apart
              cases hs.symm.trans hq
              refine ⟨rest, by simp, rfl, scopes, apart, fun p hp r hr => ?_⟩
              rcases List.mem_append.mp hp with hp | hp
              · exact across p hp r (List.mem_cons_of_mem _ hr)
              · rw [List.mem_singleton.mp hp]
                exact first r hr

/-- **When the assignments of a batch can be placed.** -/
theorem place_eq_ok_iff {placed : List Placed} {as : List Assignment} :
    place as = .ok placed ↔ placed.map Placed.assignment = as ∧
      (∀ p ∈ placed, scopeOf p.assignment.params = .ok p.scope) ∧ placed.Pairwise Placed.Apart := by
  rw [place, placeAfter_eq_ok_iff]
  constructor
  · rintro ⟨rest, rfl, assignments, scopes, apart, -⟩
    exact ⟨assignments, scopes, apart⟩
  · rintro ⟨assignments, scopes, apart⟩
    exact ⟨placed, rfl, assignments, scopes, apart, by simp⟩

end Store

end ScopedConfig
