import Mathlib.Tactic.TFAE
import ScopedConfig.Proofs.Identities

/-!
# One notion of sameness

Scopes are compared by their parameters, by how they relate, by their canonical forms and by what is
hashed of them. On scopes that parameter lists name all of these agree (`WellFormed.same_tfae`).
Inclusion is an order on these scopes whose equality is sameness, and the four relations are what it
says of two scopes (`same_is_one_notion`).
-/

namespace ScopedConfig

/-- The same relation, seen from the other scope. -/
def Relation.mirror : Relation → Relation
  | .equal => .equal
  | .subset => .superset
  | .superset => .subset
  | .disjoint => .disjoint

namespace Scope

variable {r s t : Scope}

/-! ### Relations

The relation of two scopes is made of the two inclusions between them, so seen from the other scope
it is its mirror. -/

theorem relation_mirror (s t : Scope) : (s.relation t).mirror = t.relation s := by
  rw [relation, relation]
  cases s.within t <;> cases t.within s <;> rfl

/-- Each includes the other. -/
theorem relation_eq_equal_iff : s.relation t = .equal ↔ s.within t ∧ t.within s := by
  rw [relation]
  cases s.within t <;> cases t.within s <;> simp

theorem relation_eq_disjoint_iff : s.relation t = .disjoint ↔ ¬ s.within t ∧ ¬ t.within s := by
  rw [relation]
  cases s.within t <;> cases t.within s <;> simp

namespace WellFormed

/-! ### Inclusion as an order

Well-formed scopes are ordered by inclusion of their parameters, as sets are. Equality in this order
is sameness, not equality of the lists. -/

theorem within_refl (hs : s.WellFormed) : s.within s :=
  (hs.within_iff_subset hs).mpr (List.Subset.refl _)

/-- **Inclusion is transitive**, and reflexive, as that of lists is. -/
theorem within_trans (hr : r.WellFormed) (hs : s.WellFormed) (ht : t.WellFormed)
    (hrs : r.within s) (hst : s.within t) : r.within t :=
  (hr.within_iff_subset ht).mpr
    (List.Subset.trans ((hr.within_iff_subset hs).mp hrs) ((hs.within_iff_subset ht).mp hst))

/-- Names are unique, so a scope's parameters are known by which of them there are. -/
theorem same_iff_mem_iff (hs : s.WellFormed) (ht : t.WellFormed) :
    s.same t ↔ ∀ p, p ∈ s.params ↔ p ∈ t.params := by
  rw [hs.same_iff_perm ht, List.perm_ext_iff_of_nodup hs.nodup_params ht.nodup_params]

/-- Scopes that include each other are the same, and no others are. -/
theorem same_iff_within (hs : s.WellFormed) (ht : t.WellFormed) :
    s.same t ↔ s.within t ∧ t.within s := by
  rw [hs.same_iff_mem_iff ht, hs.within_iff_subset ht, ht.within_iff_subset hs]
  constructor
  · exact fun h => ⟨fun p hp => (h p).mp hp, fun p hp => (h p).mpr hp⟩
  · exact fun ⟨st, ts⟩ p => ⟨fun hp => st hp, fun hp => ts hp⟩

/-! ### Sameness

All ways of telling sameness are tied to the comparison that the program makes, `same`. -/

/-- **Sameness can be told in any of these ways.** -/
theorem same_tfae (hs : s.WellFormed) (ht : t.WellFormed) :
    [∀ p, p ∈ s.params ↔ p ∈ t.params, s.params.Perm t.params, s.same t = true,
      s.relation t = .equal, s.canonical.params = t.canonical.params].TFAE := by
  tfae_have 3 ↔ 1 := hs.same_iff_mem_iff ht
  tfae_have 3 ↔ 2 := hs.same_iff_perm ht
  tfae_have 3 ↔ 4 := by rw [hs.same_iff_within ht, relation_eq_equal_iff]
  tfae_have 3 ↔ 5 := by rw [hs.same_iff_canonical_eq ht, Scope.mk.injEq]
  tfae_finish

end WellFormed

/-- **Scopes that parameter lists name have one notion of sameness**, which is that of the order that
inclusion is on them. Sizes are bounded where they are written into eight bytes, and the hash is assumed
not to collide where identities are compared. -/
theorem same_is_one_notion {ps qs : List Parameter} {s t : Scope} (hs : ofParameters ps = .ok s)
    (ht : ofParameters qs = .ok t) :
    [∀ p, p ∈ s.params ↔ p ∈ t.params, s.params.Perm t.params, s.same t = true,
      s.relation t = .equal, s.canonical.params = t.canonical.params].TFAE ∧
    (s.Addressable → t.Addressable →
      (frames s.canonical.params = frames t.canonical.params ↔ s.same t) ∧
      ((Blake3.hash (frames s.canonical.params) = Blake3.hash (frames t.canonical.params) →
          frames s.canonical.params = frames t.canonical.params) → (s.id = t.id ↔ s.same t))) ∧
    (s.within t ↔ s.params ⊆ t.params) ∧
    s.within s ∧ (s.within t → t.within s → s.same t) ∧
    (∀ rs r, ofParameters rs = .ok r → r.within s → s.within t → r.within t) ∧
    t.relation s = (s.relation t).mirror ∧
    (s.relation t = .disjoint ↔ ¬ s.params ⊆ t.params ∧ ¬ t.params ⊆ s.params) := by
  have hs := wellFormed_of_ofParameters hs
  have ht := wellFormed_of_ofParameters ht
  refine ⟨hs.same_tfae ht, fun fs ft => ⟨?_, fun noCollision => ?_⟩, hs.within_iff_subset ht,
    hs.within_refl, fun st ts => (hs.same_iff_within ht).mpr ⟨st, ts⟩,
    fun rs r hr => (wellFormed_of_ofParameters hr).within_trans hs ht,
    (relation_mirror s t).symm, ?_⟩
  · rw [frames_eq_iff fs ft, hs.same_iff_canonical_eq ht]
  · rw [id_eq_iff fs ft noCollision, hs.same_iff_canonical_eq ht]
  · rw [relation_eq_disjoint_iff, hs.within_iff_subset ht, ht.within_iff_subset hs]

/-- A scope of two parameters, and the same one spelt the other way round. -/
def spelling : Scope := ⟨[("env", "prod"), ("name", "t1")]⟩

def respelling : Scope := ⟨[("name", "t1"), ("env", "prod")]⟩

theorem addressable_spelling : spelling.Addressable := ⟨by decide, by simp [spelling]; decide⟩

theorem addressable_respelling : respelling.Addressable := ⟨by decide, by simp [respelling]; decide⟩

theorem respelling_is_the_same :
    ofParameters spelling.toParameters = .ok spelling ∧
    ofParameters respelling.toParameters = .ok respelling ∧
    spelling ≠ respelling ∧ spelling.relation respelling = .equal ∧
    frames spelling.canonical.params = frames respelling.canonical.params ∧
    spelling.id = respelling.id := by
  have named : ofParameters spelling.toParameters = .ok spelling := by decide
  have renamed : ofParameters respelling.toParameters = .ok respelling := by decide
  obtain ⟨ways, hashed, -⟩ := same_is_one_notion named renamed
  obtain ⟨frames, id⟩ := hashed addressable_spelling addressable_respelling
  have mem : ∀ p, p ∈ spelling.params ↔ p ∈ respelling.params := fun p => by
    simp [spelling, respelling, or_comm]
  have same : spelling.same respelling := (ways.out 0 2).mp mem
  have frames := frames.mpr same
  exact ⟨named, renamed, by decide, (ways.out 0 3).mp mem, frames, (id fun _ => frames).mpr same⟩

end Scope

end ScopedConfig
