import ScopedConfig.Proofs.Filters
import ScopedConfig.Proofs.AlikeSessions

/-!
# Filters by inclusion

A filter leaves values open; once they are chosen it is a scope (`Filter.filled`). It covers the scopes
that include one of the scopes that it can so become (`Filter.covers_iff_exists_filled`), and fits those
that have its names and no others, with the values that it does not leave open (`Filter.fits_iff_names`).
A filter that leaves nothing open is the parameters of one scope: it covers what includes this scope and
fits the scope alone (`Filter.covers_toParameters_iff`, `Filter.fits_toParameters_iff`).
-/

namespace ScopedConfig

open Parameter

variable {f : Filter} {s t : Scope} {p : Parameter} {ps qs : List Parameter} {value : String}

/-- A term has a value if it names one. -/
theorem Parameter.value?_eq_some_iff : p.value? = some value ↔ p.pattern = .exactly value := by
  rw [value?]
  cases p.pattern <;> simp

theorem Parameter.value?_eq_none_iff : p.value? = none ↔ p.pattern = .anything := by
  rw [value?]
  cases p.pattern <;> simp

namespace Filter

/-! ## Chosen values

What a filter is about is the scopes that it may become. The choice goes by names, so that it can be
read off a scope: the values of the scope are a choice for which the filter is within it, if any is.
-/

/-- The scope that a filter becomes when a value is chosen for each name that it leaves open. -/
def filled (f : Filter) (choice : String → String) : Scope :=
  ⟨f.terms.map fun p => (p.name, p.value?.getD (choice p.name))⟩

/-- Each term is a parameter with the value that it names, or else with the one chosen. -/
theorem mem_filled {choice : String → String} {q : String × String} :
    q ∈ (f.filled choice).params ↔ ∃ p ∈ f.terms, (p.name, p.value?.getD (choice p.name)) = q :=
  List.mem_map

theorem wellFormed_filled (hf : Named f.terms) (choice : String → String) :
    (f.filled choice).WellFormed where
  nodup := by
    have names : (f.filled choice).params.map Prod.fst = f.terms.map Parameter.name := by
      simp [filled, Function.comp_def]
    rw [names]
    exact hf.nodup
  nonempty q hq := by
    obtain ⟨p, hp, rfl⟩ := mem_filled.mp hq
    exact hf.nonempty p hp

/-- **A filter covers what includes it, for some choice of the values left open.** -/
theorem covers_iff_exists_filled (hf : Named f.terms) (hs : s.WellFormed) :
    f.covers s ↔ ∃ choice, (f.filled choice).within s := by
  rw [covers_iff hs]
  constructor
  · intro fitting
    -- the values that the scope has
    refine ⟨fun name => (s.value? name).getD "", ?_⟩
    rw [(wellFormed_filled hf _).within_iff_subset hs]
    intro q hq
    obtain ⟨p, hp, rfl⟩ := mem_filled.mp hq
    obtain ⟨value, mem, pattern⟩ := fitting p hp
    have chosen : p.value?.getD ((s.value? p.name).getD "") = value := by
      rcases pattern with pattern | pattern
      · rw [value?_eq_none_iff.mpr pattern, hs.value?_eq_some_iff.mpr mem]
        rfl
      · rw [value?_eq_some_iff.mpr pattern]
        rfl
    rwa [chosen]
  · rintro ⟨choice, within⟩ p hp
    -- the chosen value of a term is a parameter of the scope
    have mem := ((wellFormed_filled hf choice).within_iff_subset hs).mp within
      (mem_filled.mpr ⟨p, hp, rfl⟩)
    cases pattern : p.pattern with
    | anything => exact ⟨_, mem, .inl rfl⟩
    | exactly value =>
        rw [value?_eq_some_iff.mpr pattern, Option.getD_some] at mem
        exact ⟨value, mem, .inr rfl⟩

/-- **A filter fits what has its names, and its values where it names them.** -/
theorem fits_iff_names (hf : Named f.terms) (hs : s.WellFormed) :
    f.fits s ↔ (∀ name, name ∈ s.params.map Prod.fst ↔ name ∈ f.terms.map Parameter.name) ∧
      ∀ p ∈ f.terms, ∀ value, p.pattern = .exactly value → s.value? p.name = some value := by
  rw [fits_iff hf hs, covers_iff hs]
  constructor
  · rintro ⟨fitting, named⟩
    refine ⟨fun name => ⟨fun mem => ?_, fun mem => ?_⟩, fun p hp value pattern => ?_⟩
    · obtain ⟨q, hq, rfl⟩ := List.mem_map.mp mem
      exact List.mem_map.mpr (named q hq)
    · obtain ⟨p, hp, rfl⟩ := List.mem_map.mp mem
      obtain ⟨value, mem, -⟩ := fitting p hp
      exact List.mem_map.mpr ⟨_, mem, rfl⟩
    · obtain ⟨value', mem, open' | closed⟩ := fitting p hp
      · rw [open'] at pattern
        cases pattern
      · rw [closed] at pattern
        cases pattern
        exact hs.value?_eq_some_iff.mpr mem
  · rintro ⟨names, values⟩
    refine ⟨fun p hp => ?_, fun q hq => ?_⟩
    · cases pattern : p.pattern with
      | anything =>
          obtain ⟨q, hq, name⟩ := List.mem_map.mp ((names p.name).mpr (List.mem_map_of_mem hp))
          exact ⟨q.2, name ▸ hq, .inl rfl⟩
      | exactly value =>
          exact ⟨value, hs.value?_eq_some_iff.mp (values p hp value pattern), .inr rfl⟩
    · exact List.mem_map.mp ((names q.1).mp (List.mem_map_of_mem hq))

/-- Fitting is covering with as many names. -/
theorem covers_of_fits (h : f.fits s) : f.covers s := by
  simp only [fits, Bool.and_eq_true] at h
  exact h.2

/-! ## Filters without wildcards

The list of parameters that names a scope is a filter as well. Whatever is chosen, it becomes this
scope, so its modes are inclusion and sameness. -/

theorem ofParameters_toParameters (ht : t.WellFormed) :
    ofParameters t.toParameters = .ok ⟨t.toParameters⟩ :=
  ofParameters_eq_ok_iff.mpr ⟨ht.namesScope.toNamed, rfl⟩

/-- With nothing left open there is nothing to choose. -/
theorem filled_toParameters (t : Scope) (choice : String → String) :
    (Filter.mk t.toParameters).filled choice = t := by
  simp [filled, Scope.toParameters, Function.comp_def, value?]

theorem covers_toParameters_iff (ht : t.WellFormed) (hs : s.WellFormed) :
    (Filter.mk t.toParameters).covers s ↔ t.within s := by
  rw [covers_iff_exists_filled (f := ⟨t.toParameters⟩) ht.namesScope.toNamed hs]
  simp [filled_toParameters]

/-- It fits the scope alone: as many parameters, all of them among those of the other. -/
theorem fits_toParameters_iff (ht : t.WellFormed) (hs : s.WellFormed) :
    (Filter.mk t.toParameters).fits s ↔ s.same t := by
  rw [fits, Bool.and_eq_true, covers_toParameters_iff ht hs, hs.same_iff_perm ht, decide_eq_true_eq,
    ht.within_iff_subset hs]
  simp only [Scope.toParameters, List.length_map]
  constructor
  · rintro ⟨length, subset⟩
    exact ((ht.nodup_params.subperm subset).perm_of_length_le (Nat.le_of_eq length)).symm
  · intro perm
    exact ⟨perm.length_eq, perm.symm.subset⟩

/-! ## The order of terms and parameters

Looking up the terms in the scope does not depend on the order on either side. -/

theorem covers_alike (h : s.Alike t) (f : Filter) : f.covers s = f.covers t := by
  simp only [covers, h.value?_eq]

/-- The spelling of a scope does not matter to a filter. -/
theorem admits_alike (h : s.Alike t) (f : Filter) (coverage : Coverage) :
    f.admits coverage s = f.admits coverage t := by
  cases coverage <;> simp only [admits, fits, covers_alike h, h.perm.length_eq]

/-- Neither the order of the terms nor that of the parameters makes a difference. -/
theorem admits_of_perm {ps' qs' : List Parameter} (hf : ofParameters ps = .ok f)
    (hs : Scope.ofParameters qs = .ok s) (terms : ps'.Perm ps) (params : qs'.Perm qs) :
    ∃ f' s', ofParameters ps' = .ok f' ∧ Scope.ofParameters qs' = .ok s' ∧
      ∀ coverage, f'.admits coverage s' = f.admits coverage s := by
  obtain ⟨named, -⟩ := ofParameters_eq_ok_iff.mp hf
  obtain ⟨g, f', hg, hf', admits⟩ := exists_ofParameters_of_perm named terms.symm
  obtain rfl : g = f := Except.ok.inj (hg.symm.trans hf)
  obtain ⟨s', hs', same⟩ := Scope.exists_ofParameters_of_perm params hs
  refine ⟨f', s', hf', hs', fun coverage => ?_⟩
  rw [← admits coverage s']
  exact admits_alike ⟨Scope.wellFormed_of_ofParameters hs', Scope.wellFormed_of_ofParameters hs, same⟩ g
    coverage

/-! ## Both modes

The statement, with what a filter made of a scope's own parameters admits, and for parameters in any
order. -/

/-- **The modes of a filter are inclusion and equality up to what it leaves open.** -/
theorem modes_agree_with_inclusion (hf : ofParameters ps = .ok f) (hs : Scope.ofParameters qs = .ok s) :
    (f.covers s ↔ ∃ choice, (f.filled choice).within s) ∧
    (f.fits s ↔ (∀ name, name ∈ s.params.map Prod.fst ↔ name ∈ f.terms.map Parameter.name) ∧
      ∀ p ∈ f.terms, ∀ value, p.pattern = .exactly value → s.value? p.name = some value) ∧
    (f.fits s → f.covers s) ∧
    (∀ rs t, Scope.ofParameters rs = .ok t → ∃ g, ofParameters t.toParameters = .ok g ∧
      (g.fits s ↔ s.same t) ∧ (g.covers s ↔ t.within s)) ∧
    ∀ ps' qs', ps'.Perm ps → qs'.Perm qs → ∃ f' s',
      ofParameters ps' = .ok f' ∧ Scope.ofParameters qs' = .ok s' ∧
      f'.covers s' = f.covers s ∧ f'.fits s' = f.fits s := by
  obtain ⟨named, rfl⟩ := ofParameters_eq_ok_iff.mp hf
  have wf := Scope.wellFormed_of_ofParameters hs
  refine ⟨covers_iff_exists_filled named wf, fits_iff_names named wf, covers_of_fits,
    fun rs t ht => ?_, fun ps' qs' terms params => ?_⟩
  · have wf' := Scope.wellFormed_of_ofParameters ht
    exact ⟨_, ofParameters_toParameters wf', fits_toParameters_iff wf' wf, covers_toParameters_iff wf' wf⟩
  · obtain ⟨f', s', hf', hs', admits⟩ := admits_of_perm hf hs terms params
    exact ⟨f', s', hf', hs', admits .covering, admits .exactly⟩

/-- A filter with one value left open, and a scope that has one name more. -/
def openName : List Parameter := [⟨"env", .exactly "prod"⟩, ⟨"name", .anything⟩]

def regional : List Parameter :=
  [⟨"name", .exactly "t1"⟩, ⟨"region", .exactly "eu"⟩, ⟨"env", .exactly "prod"⟩]

theorem openName_covers_regional : ∃ f s, ofParameters openName = .ok f ∧
    Scope.ofParameters regional = .ok s ∧ (f.filled fun _ => "t1").within s ∧ f.covers s ∧ ¬ f.fits s ∧
    ∃ f' s', ofParameters openName.reverse = .ok f' ∧ Scope.ofParameters regional.reverse = .ok s' ∧
      f'.covers s' ∧ ¬ f'.fits s' := by
  have hf : ofParameters openName = .ok ⟨openName⟩ := by decide
  have hs : Scope.ofParameters regional =
      .ok ⟨[("name", "t1"), ("region", "eu"), ("env", "prod")]⟩ := by decide
  obtain ⟨covers, fits, -, -, order⟩ := modes_agree_with_inclusion hf hs
  have within : ((Filter.mk openName).filled fun _ => "t1").within
      ⟨[("name", "t1"), ("region", "eu"), ("env", "prod")]⟩ := by decide
  have covers := covers.mpr ⟨_, within⟩
  have misfit : ¬ (Filter.mk openName).fits ⟨[("name", "t1"), ("region", "eu"), ("env", "prod")]⟩ := by
    intro h
    have other := (fits.mp h).1 "region"
    simp [openName] at other
  obtain ⟨f', s', hf', hs', covers', fits'⟩ :=
    order _ _ (List.reverse_perm openName) (List.reverse_perm regional)
  exact ⟨_, _, hf, hs, within, covers, misfit, f', s', hf', hs', covers' ▸ covers, fits' ▸ misfit⟩

end Filter

end ScopedConfig
