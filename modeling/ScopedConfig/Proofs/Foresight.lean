import ScopedConfig.Proofs.Phases
import ScopedConfig.Proofs.Writes

/-!
# The catalog after a write, foreseen

`Catalog.afterWrites` tells what a catalog will look like once a batch is written, without writing it.
It goes through the scopes that the batch names, one after another; `Store.Gathers` says which lists of
scopes will do: each scope once, in whatever spelling and order. On such a list the catalog foreseen
and the one loaded after the write list ledgers with the same pointers (`Gathers.pointers_advanceAll`),
and two catalogs that do so hold the same records (`Lists.perm`).
-/

namespace ScopedConfig

open Store

variable {U : Scope → Prop} {t t' : Table} {l l' : Ledger} {c c' : Catalog} {s : Scope}
  {scopes : List Scope} {as : List Assignment} {placed : List Placed}

/-! ## The scopes of a batch

A scope may stand in a batch several times and in several spellings. What the catalog foresees is
one advance for each scope, so the list that it goes through must have each once. -/

namespace Store

/-- The scopes are those that assignments name, each once; their spelling and their order are free. -/
structure Gathers (as : List Assignment) (scopes : List Scope) : Prop where
  wellFormed : ∀ s ∈ scopes, s.WellFormed
  once : scopes.Pairwise fun s r => ¬ s.same r
  named : ∀ s ∈ scopes, ∃ a ∈ as, ∃ r, scopeOf a.params = .ok r ∧ s.same r
  covers : ∀ a ∈ as, ∀ r, scopeOf a.params = .ok r → ∃ s ∈ scopes, s.same r

namespace Gathers

theorem nodup_canonical (h : Gathers as scopes) : (scopes.map Scope.canonical).Nodup := by
  refine List.pairwise_map.mpr (h.once.imp_of_mem fun hs hr apart eq => apart ?_)
  exact ((h.wellFormed _ hs).same_iff_canonical_eq (h.wellFormed _ hr)).mpr eq

/-- The list has the scopes of the batch and no others. -/
theorem mem_canonical_iff (h : Gathers as scopes) (located : Located as placed) :
    s ∈ scopes.map Scope.canonical ↔ ∃ p ∈ placed, p.scope.canonical = s := by
  have wf : ∀ p ∈ placed, p.scope.WellFormed := fun p hp => wellFormed_of_scopeOf (located.scopes p hp)
  rw [List.mem_map]
  constructor
  · rintro ⟨r, hr, rfl⟩
    obtain ⟨a, ha, q, hq, same⟩ := h.named r hr
    rw [← located.assignments] at ha
    obtain ⟨p, hp, rfl⟩ := List.mem_map.mp ha
    cases hq.symm.trans (located.scopes p hp)
    exact ⟨p, hp, (((h.wellFormed r hr).same_iff_canonical_eq (wf p hp)).mp same).symm⟩
  · rintro ⟨p, hp, rfl⟩
    have mem : p.assignment ∈ as := located.assignments ▸ List.mem_map_of_mem hp
    obtain ⟨r, hr, same⟩ := h.covers _ mem _ (located.scopes p hp)
    exact ⟨r, hr, ((h.wellFormed r hr).same_iff_canonical_eq (wf p hp)).mp same⟩

/-- A write to each of the scopes moves the pointers as the batch does. -/
theorem pointers_advanceAll (h : Gathers as scopes) (located : Located as placed) (l : Ledger)
    (batch : BatchId) :
    (scopes.foldl (fun l s => l.advance s.canonical) l).pointers = (l.write batch placed).pointers := by
  funext s
  rw [Ledger.pointers_advanceAll h.nodup_canonical, Ledger.write]
  simp only [h.mem_canonical_iff located, List.any_eq_true, decide_eq_true_eq]

end Gathers

/-- The scopes that a batch is checked against beforehand are such a list. -/
theorem gathers_distinct {ops : List Operation} (assigned : assignedScopes ops = .ok scopes) :
    Gathers (ops.filterMap Operation.assignment?) (Scope.distinct scopes) := by
  obtain ⟨placed, located, rfl⟩ := assignedScopes_eq_ok_iff.mp assigned
  have wf := located.wellFormed
  refine ⟨fun s hs => wf s (Scope.mem_distinct hs), Scope.pairwise_distinct _, fun s hs => ?_,
    fun a ha r hr => ?_⟩
  · obtain ⟨p, hp, rfl⟩ := List.mem_map.mp (Scope.mem_distinct hs)
    refine ⟨p.assignment, located.assignments ▸ List.mem_map_of_mem hp, p.scope,
      located.scopes p hp, ?_⟩
    exact (wf _ (List.mem_map_of_mem hp)).same_refl
  · rw [← located.assignments] at ha
    obtain ⟨p, hp, rfl⟩ := List.mem_map.mp ha
    cases hr.symm.trans (located.scopes p hp)
    exact Scope.exists_mem_distinct wf (List.mem_map_of_mem hp)

end Store

/-! ## Catalogs that list the same

A catalog has the records in the order of their keys, the one foreseen has new records at the end.
Both list what the pointers of a ledger say, and that makes them permutations of each other. -/

/-- Catalogs of ledgers with the same pointers have the same records. -/
theorem Catalog.Lists.perm (h : c.Lists l) (h' : c'.Lists l') (pointers : l.pointers = l'.pointers) :
    c.records.Perm c'.records := by
  apply (List.perm_ext_iff_of_nodup (h.distinct.of_map _) (h'.distinct.of_map _)).mpr
  intro r
  rw [h.mem, h'.mem, pointers]

/-- The catalog foreseen lists the ledger after the batch, as far as pointers go. -/
theorem Catalog.Lists.afterWrites_perm (h : c.Lists l) {batch : BatchId}
    (h' : c'.Lists (l.write batch placed)) (located : Located as placed) (gathers : Gathers as scopes) :
    (c.afterWrites scopes).records.Perm c'.records :=
  (h.afterWrites gathers.wellFormed).perm h' (gathers.pointers_advanceAll located l batch)

namespace System

variable {ι : Type} [DecidableEq ι]

/-- **The catalog foreseen is the catalog after the write.** If a batch is written, the records of the
catalog loaded afterwards are those that the catalog loaded before foresees for the scopes of the
batch: the same scopes with the same pointers, whether the batch finds them or creates them. It does
not matter in which spelling and order the scopes are gathered. -/
theorem catalog_foresees_write (sep : Scope.Separated U) (moves : List (Move ι))
    (within : ∀ h c, .call h c ∈ moves → c.Within U) {policy : RetryPolicy} {ids : Nat → BatchId}
    (used : (Call.write policy ids as).Within U) {r : WriteReceipt}
    (run : (write policy ids as).run (run moves).table = (.ok r, t')) :
    ∃ c c', catalog.run (System.run moves).table = (.ok c, (System.run moves).table) ∧
      catalog.run t' = (.ok c', t') ∧
      ∀ scopes, Gathers as scopes → (c.afterWrites scopes).records.Perm c'.records := by
  obtain ⟨replies, l, traced⟩ := run_traced sep moves within
  have depicts := traced.trace.depicts
  obtain ⟨placed, places, depicts'⟩ := depicts.depicts_of_write_run sep used run
  have located := (place_eq_ok_iff_located.mp places).1
  obtain ⟨c, before, lists⟩ := depicts.catalog_run sep
  obtain ⟨c', after, lists'⟩ := depicts'.catalog_run sep
  exact ⟨c, c', before, after, fun scopes gathers => lists.afterWrites_perm lists' located gathers⟩

/-- The scopes of a batch that writes to one scope twice, the other way round. -/
theorem gathers_news : Gathers news [⟨[("env", "prod")]⟩, .global] where
  wellFormed s hs := by
    simp only [List.mem_cons, List.not_mem_nil, or_false] at hs
    rcases hs with rfl | rfl
    · exact Scope.separated_sample.wellFormed _ (.inr rfl)
    · exact Scope.separated_sample.wellFormed _ (.inl rfl)
  once := by decide
  named := by
    simp only [List.mem_cons, List.not_mem_nil, or_false, forall_eq_or_imp, forall_eq]
    exact ⟨⟨⟨"limit", .integer 4, [⟨"env", .exactly "prod"⟩]⟩, by decide, _, rfl, by decide⟩,
      ⟨⟨"limit", .integer 3, []⟩, by decide, _, rfl, by decide⟩⟩
  covers a ha r hr := by
    rcases news_within a ha r hr with rfl | rfl
    · exact ⟨.global, by simp, by decide⟩
    · exact ⟨⟨[("env", "prod")]⟩, by simp, by decide⟩

theorem race_foresees_news : ∃ r t' c c',
    (write (.immediate 1) (.stamped 2) news).run (run race).table = (.ok r, t') ∧
    catalog.run (run race).table = (.ok c, (run race).table) ∧ catalog.run t' = (.ok c', t') ∧
    (c.afterWrites [⟨[("env", "prod")]⟩, .global]).records.Perm c'.records := by
  have ok : ((write (.immediate 1) (.stamped 2) news).run (run race).table).1.isOk := by decide +kernel
  obtain ⟨r, t', goes⟩ := Session.exists_run_of_isOk ok
  obtain ⟨c, c', before, after, foreseen⟩ :=
    catalog_foresees_write Scope.separated_sample race race_within news_within goes
  exact ⟨r, t', c, c', goes, before, after, foreseen _ gathers_news⟩

end System

end ScopedConfig
