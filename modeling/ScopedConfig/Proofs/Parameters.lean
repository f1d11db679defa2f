import ScopedConfig.Proofs.Checks
import ScopedConfig.Proofs.Scopes
import ScopedConfig.Scope.Filter
import ScopedConfig.Store.History

/-!
# Valid parameter lists

`Parameter.Named` says what a list of parameters needs to write a filter, and `Parameter.NamesScope`
what it needs to name a scope. The lists that the program accepts are just these
(`Scope.exists_ofParameters_iff`, `Filter.exists_ofParameters_iff`), and a scope is spelt as the list
that names it (`Scope.ofParameters_eq_ok_iff`), a filter as the list that writes it
(`Filter.ofParameters_eq_ok_iff`).
-/

namespace ScopedConfig

/-! ## Lists of parameters

The conditions on a list of parameters say nothing about order, and a list satisfies them if its
head goes with its tail and the tail satisfies them. -/

namespace Parameter

/-- The names are not empty, and no two are the same. -/
structure Named (ps : List Parameter) : Prop where
  nonempty : ∀ p ∈ ps, p.name ≠ ""
  nodup : (ps.map Parameter.name).Nodup

/-- Moreover no value is left open. -/
structure NamesScope (ps : List Parameter) : Prop extends Named ps where
  closed : ∀ p ∈ ps, p.pattern ≠ .anything

theorem named_cons_iff {p : Parameter} {ps : List Parameter} :
    Named (p :: ps) ↔ p.name ≠ "" ∧ (∀ q ∈ ps, p.name ≠ q.name) ∧ Named ps := by
  constructor
  · intro h
    obtain ⟨first, rest⟩ := List.forall_mem_cons.mp h.nonempty
    obtain ⟨new, nodup⟩ := List.nodup_cons.mp h.nodup
    exact ⟨first, fun q hq eq => new (List.mem_map.mpr ⟨q, hq, eq.symm⟩), rest, nodup⟩
  · rintro ⟨first, new, rest, nodup⟩
    refine ⟨List.forall_mem_cons.mpr ⟨first, rest⟩, List.nodup_cons.mpr ⟨fun h => ?_, nodup⟩⟩
    obtain ⟨q, hq, eq⟩ := List.mem_map.mp h
    exact new q hq eq.symm

theorem namesScope_cons_iff {p : Parameter} {ps : List Parameter} :
    NamesScope (p :: ps) ↔
      p.pattern ≠ .anything ∧ p.name ≠ "" ∧ (∀ q ∈ ps, p.name ≠ q.name) ∧ NamesScope ps := by
  constructor
  · intro h
    obtain ⟨closed, closeds⟩ := List.forall_mem_cons.mp h.closed
    obtain ⟨first, new, rest⟩ := named_cons_iff.mp h.toNamed
    exact ⟨closed, first, new, rest, closeds⟩
  · rintro ⟨closed, first, new, rest, closeds⟩
    exact ⟨named_cons_iff.mpr ⟨first, new, rest⟩, List.forall_mem_cons.mpr ⟨closed, closeds⟩⟩

end Parameter

open Parameter

variable {ps : List Parameter}

/-! ## Scopes

The program goes through a list with the names it has taken so far. What is shown by induction
therefore speaks of the names taken too; for a whole list there are none. -/

namespace Scope

theorem lookup_concat_eq_none_iff {taken : List (String × String)} {name name' value : String} :
    (taken ++ [(name, value)]).lookup name' = none ↔ taken.lookup name' = none ∧ name' ≠ name := by
  rw [List.lookup_append, Option.or_eq_none_iff, List.lookup_cons]
  by_cases same : name' = name
  · simp [same]
  · have : (name' == name) = false := by simpa using same
    simp [this, same]

/-- The taken names count as used. -/
theorem exists_collect_iff {taken : List (String × String)} :
    (∃ params, collect taken ps = .ok params) ↔
      NamesScope ps ∧ ∀ p ∈ ps, taken.lookup p.name = none := by
  induction ps generalizing taken with
  | nil => exact ⟨fun _ => ⟨⟨⟨by simp, by simp⟩, by simp⟩, by simp⟩, fun _ => ⟨taken, rfl⟩⟩
  | cons p ps ih =>
      rw [collect, namesScope_cons_iff, List.forall_mem_cons]
      cases pattern : p.pattern with
      | anything => simp
      | exactly value =>
          by_cases nameless : p.name = ""
          · simp [nameless]
          · by_cases used : (taken.lookup p.name).isSome
            · have : taken.lookup p.name ≠ none := Option.isSome_iff_ne_none.mp used
              simp [nameless, used, this]
            · have unused : taken.lookup p.name = none := Option.not_isSome_iff_eq_none.mp used
              simp only [nameless, used, if_false, Bool.false_eq_true, ih, lookup_concat_eq_none_iff]
              grind

/-- **The lists that name a scope.** -/
theorem exists_ofParameters_iff : (∃ s, ofParameters ps = .ok s) ↔ NamesScope ps := by
  have collected : (∃ params, collect [] ps = .ok params) ↔ _ := exists_collect_iff
  simp only [List.lookup_nil, implies_true, and_true] at collected
  rw [← collected, ofParameters]
  cases collect [] ps <;> simp [Except.map]

theorem parameter_injective :
    Function.Injective fun p : String × String => (⟨p.1, .exactly p.2⟩ : Parameter) := by
  rintro ⟨name, value⟩ ⟨name', value'⟩ ⟨⟩
  rfl

/-- What is collected is the parameters themselves, behind those taken. -/
theorem toParameters_of_collect {taken params : List (String × String)}
    (h : collect taken ps = .ok params) :
    (mk params).toParameters = (mk taken).toParameters ++ ps := by
  induction ps generalizing taken with
  | nil =>
      cases h
      rw [List.append_nil]
  | cons p ps ih =>
      obtain ⟨name, pattern⟩ := p
      rw [collect] at h
      cases pattern with
      | anything => cases h
      | exactly value =>
          simp only at h
          split at h
          · cases h
          · split at h
            · cases h
            · rw [ih h]
              simp [toParameters]

theorem WellFormed.namesScope {s : Scope} (h : s.WellFormed) : NamesScope s.toParameters where
  nonempty p hp := by
    obtain ⟨q, hq, rfl⟩ := List.mem_map.mp hp
    exact h.nonempty q hq
  nodup := by
    rw [toParameters, List.map_map]
    exact h.nodup
  closed p hp := by
    obtain ⟨q, -, rfl⟩ := List.mem_map.mp hp
    exact Pattern.noConfusion

/-- **A list names the scope of its parameters, in their order.** -/
theorem ofParameters_eq_ok_iff {s : Scope} :
    ofParameters ps = .ok s ↔ s.WellFormed ∧ ps = s.toParameters := by
  have spelt {ps : List Parameter} {s : Scope} (h : ofParameters ps = .ok s) :
      ps = s.toParameters := by
    rw [ofParameters] at h
    cases collected : collect [] ps with
    | error e =>
        rw [collected] at h
        cases h
    | ok params =>
        rw [collected] at h
        cases h
        exact (toParameters_of_collect collected).symm
  constructor
  · exact fun h => ⟨wellFormed_of_ofParameters h, spelt h⟩
  · rintro ⟨wf, rfl⟩
    obtain ⟨r, hr⟩ := exists_ofParameters_iff.mpr wf.namesScope
    have eq : s = r := congrArg Scope.mk (parameter_injective.list_map (spelt hr))
    rw [hr, eq]

/-- In any other order they name the same scope. -/
theorem exists_ofParameters_of_perm {s : Scope} {qs : List Parameter} (perm : qs.Perm ps)
    (h : ofParameters ps = .ok s) : ∃ r, ofParameters qs = .ok r ∧ r.same s := by
  obtain ⟨wf, rfl⟩ := ofParameters_eq_ok_iff.mp h
  have names : NamesScope qs :=
    { nonempty := fun p hp => wf.namesScope.nonempty p (perm.mem_iff.mp hp)
      nodup := (perm.map _).nodup_iff.mpr wf.namesScope.nodup
      closed := fun p hp => wf.namesScope.closed p (perm.mem_iff.mp hp) }
  obtain ⟨r, hr⟩ := exists_ofParameters_iff.mpr names
  obtain ⟨wf', rfl⟩ := ofParameters_eq_ok_iff.mp hr
  exact ⟨r, hr, (wf'.same_iff_perm wf).mpr ((List.map_perm_map_iff parameter_injective).mp perm)⟩

end Scope

namespace Store

theorem scopeOf_eq_ok_iff {s : Scope} : scopeOf ps = .ok s ↔ Scope.ofParameters ps = .ok s :=
  mapError_eq_ok_iff

theorem scopeOf_eq_error_iff {e : StoreError} :
    scopeOf ps = .error e ↔ ∃ e', Scope.ofParameters ps = .error e' ∧ StoreError.input e' = e :=
  mapError_eq_error_iff

/-- **The lists that name a scope**, as operations take them. -/
theorem exists_scopeOf_iff : (∃ s, scopeOf ps = .ok s) ↔ NamesScope ps := by
  simp only [scopeOf_eq_ok_iff, Scope.exists_ofParameters_iff]

/-- What is named is a scope whose parameters have names that are not empty, each once. -/
theorem wellFormed_of_scopeOf {s : Scope} (h : scopeOf ps = .ok s) : s.WellFormed :=
  Scope.wellFormed_of_ofParameters (scopeOf_eq_ok_iff.mp h)

end Store

/-! ## Filters

The same for filters, where a value may be left open. -/

namespace Filter

theorem exists_collect_iff {taken : List Parameter} :
    (∃ terms, collect taken ps = .ok terms) ↔
      Named ps ∧ ∀ p ∈ ps, ∀ t ∈ taken, t.name ≠ p.name := by
  induction ps generalizing taken with
  | nil => exact ⟨fun _ => ⟨⟨by simp, by simp⟩, by simp⟩, fun _ => ⟨taken, rfl⟩⟩
  | cons p ps ih =>
      rw [collect, named_cons_iff, List.forall_mem_cons]
      by_cases nameless : p.name = ""
      · simp [nameless]
      · by_cases used : taken.any fun t => t.name = p.name
        · have : ¬ ∀ t ∈ taken, t.name ≠ p.name := by simpa using used
          simp [nameless, used, this]
        · have unused : ∀ t ∈ taken, t.name ≠ p.name := by simpa using used
          simp only [nameless, used, if_false, Bool.false_eq_true, ih, List.forall_mem_append,
            List.forall_mem_singleton]
          grind

/-- The terms are the parameters themselves, behind those taken. -/
theorem eq_append_of_collect {taken terms : List Parameter} (h : collect taken ps = .ok terms) :
    terms = taken ++ ps := by
  induction ps generalizing taken with
  | nil =>
      cases h
      rw [List.append_nil]
  | cons p ps ih =>
      rw [collect] at h
      split at h
      · cases h
      · split at h
        · cases h
        · rw [ih h, List.append_assoc, List.singleton_append]

/-- **The lists that write a filter.** -/
theorem exists_ofParameters_iff : (∃ f, ofParameters ps = .ok f) ↔ Named ps := by
  have collected : (∃ terms, collect [] ps = .ok terms) ↔ _ := exists_collect_iff
  simp only [List.not_mem_nil, false_implies, implies_true, and_true] at collected
  rw [← collected, ofParameters]
  cases collect [] ps <;> simp [Except.map]

/-- A list writes the filter of its parameters. -/
theorem ofParameters_eq_ok_iff {f : Filter} : ofParameters ps = .ok f ↔ Named ps ∧ f.terms = ps := by
  have written {f : Filter} (h : ofParameters ps = .ok f) : f.terms = ps := by
    rw [ofParameters] at h
    cases collected : collect [] ps with
    | error e =>
        rw [collected] at h
        cases h
    | ok terms =>
        rw [collected] at h
        cases h
        exact eq_append_of_collect collected
  constructor
  · exact fun h => ⟨exists_ofParameters_iff.mp ⟨f, h⟩, written h⟩
  · rintro ⟨named, terms⟩
    obtain ⟨g, hg⟩ := exists_ofParameters_iff.mpr named
    have same : f = g := congrArg Filter.mk (terms.trans (written hg).symm)
    rw [same, hg]

end Filter

end ScopedConfig
