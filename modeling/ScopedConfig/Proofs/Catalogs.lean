import ScopedConfig.Proofs.Ledger
import ScopedConfig.Store.Catalog

/-!
# Catalogs of a ledger

A catalog lists a ledger if its records are those of the ledger, each once. What it answers is then a
matter of the ledger alone: `Lists.find?_eq`, `Lists.checkConflicts_eq_ok_iff` and
`Lists.checkActivation_eq_ok_iff`. Looking ahead is listing the ledger after the writes
(`Lists.afterWrites`).
-/

namespace ScopedConfig

namespace Ledger

/-- Of the recorded scopes that a query includes, each two are nested. -/
def Unambiguous (l : Ledger) (query : Scope) : Prop :=
  ∀ a b, l.pointers a ≠ none → l.pointers b ≠ none → a.within query → b.within query →
    a.within b ∨ b.within a

/-- What it takes to activate a revision of a scope: the one asked for, or the working one. -/
structure Activates (l : Ledger) (s : Scope) (revision : Option Revision) (p : Pointers)
    (n : Revision) : Prop where
  unambiguous : l.Unambiguous s
  recorded : l.pointers s.canonical = some p
  revision : n = revision.getD p.working
  positive : n ≠ 0
  written : n ≤ p.working

/-- The revision of a scope that reads see. -/
def shown (l : Ledger) (s : Scope) : Option Revision := (l.pointers s).bind Pointers.active

end Ledger

/-- Revisions are counted from one up to the working one, so those are the ones that have been
written. -/
theorem ScopeRecord.hasRevision_iff {r : ScopeRecord} {n : Revision} :
    r.hasRevision n ↔ n ≠ 0 ∧ n ≤ r.working := by
  rw [hasRevision, Bool.and_eq_true, decide_eq_true_eq, decide_eq_true_eq]

namespace Catalog

/-- The records of the catalog are those of the ledger, each once. -/
structure Lists (c : Catalog) (l : Ledger) : Prop where
  mem : ∀ r, r ∈ c.records ↔ l.pointers r.scope = some ⟨r.working, r.active⟩
  distinct : (c.records.map ScopeRecord.scope).Nodup
  wellFormed : ∀ s, l.pointers s ≠ none → s.WellFormed ∧ s.canonical = s

variable {c : Catalog} {l : Ledger} {s q : Scope}

/-! ## Ambiguity

The check goes through the recorded scopes that a query includes and compares each with those behind
it, until it comes across two of which neither includes the other. Which pair is reported depends on
the order of the records; whether there is one does not. -/

/-- No strangers are found if each scope is nested with all the later ones. -/
theorem strangers?_eq_none_iff {scopes : List Scope} :
    strangers? scopes = none ↔ scopes.Pairwise fun s t => (s.relation t).isNested := by
  induction scopes with
  | nil => simp [strangers?]
  | cons s rest ih =>
      rw [strangers?, List.pairwise_cons, ← ih]
      cases h : rest.find? fun t => !(s.relation t).isNested with
      | none =>
          have nested : ∀ t ∈ rest, (s.relation t).isNested := by simpa using h
          exact ⟨fun rest => ⟨nested, rest⟩, fun h => h.2⟩
      | some t =>
          have stranger := List.find?_some h
          have mem := List.mem_of_find?_eq_some h
          constructor
          · intro h
            cases h
          · intro h
            simp [h.1 t mem] at stranger

/-- Each scope is compared with the later ones only; nesting does not depend on the order. -/
theorem strangers?_eq_none_iff_forall {scopes : List Scope} (refl : ∀ s ∈ scopes, s.within s) :
    strangers? scopes = none ↔ ∀ a ∈ scopes, ∀ b ∈ scopes, a.within b ∨ b.within a := by
  rw [strangers?_eq_none_iff]
  simp only [Scope.isNested_relation_iff]
  constructor
  · intro nested a ha b hb
    have self : ∀ a ∈ scopes, a.within a ∨ a.within a := fun a ha => .inl (refl a ha)
    exact nested.forall_of_forall_of_flip self (nested.imp Or.symm) ha hb
  · intro nested
    exact List.pairwise_of_forall_mem_list fun a ha b hb => nested a ha b hb

/-- What is found are strangers indeed, and among the scopes searched. -/
theorem strangers_of_strangers? {scopes : List Scope} {a b : Scope}
    (h : strangers? scopes = some (a, b)) :
    a ∈ scopes ∧ b ∈ scopes ∧ ¬ (a.within b ∨ b.within a) := by
  induction scopes with
  | nil => cases h
  | cons s rest ih =>
      rw [strangers?] at h
      split at h
      · next t found =>
        cases h
        have stranger := List.find?_some found
        rw [Bool.not_eq_true', Bool.eq_false_iff, Ne, Scope.isNested_relation_iff] at stranger
        exact ⟨List.mem_cons_self, List.mem_cons_of_mem a (List.mem_of_find?_eq_some found), stranger⟩
      · obtain ⟨ha, hb, strangers⟩ := ih h
        exact ⟨List.mem_cons_of_mem s ha, List.mem_cons_of_mem s hb, strangers⟩

theorem mem_covered : s ∈ c.covered q ↔ (∃ r ∈ c.records, r.scope = s) ∧ s.within q := by
  rw [covered, List.mem_filter, List.mem_map]

theorem checkConflicts_eq_ok_iff_strangers :
    c.checkConflicts q = .ok () ↔ strangers? (c.covered q) = none := by
  rw [checkConflicts]
  cases strangers? (c.covered q) <;> simp

/-- The check fails with the pair that is found, and names the query along with it. -/
theorem checkConflicts_eq_error_iff {e : StoreError} : c.checkConflicts q = .error e ↔
    ∃ a b, strangers? (c.covered q) = some (a, b) ∧ e = .ambiguousScope q a b := by
  rw [checkConflicts]
  cases strangers? (c.covered q) with
  | none => simp
  | some strangers => simp [Prod.ext_iff, eq_comm, and_assoc]

theorem exists_of_checkConflicts {e : StoreError} (h : c.checkConflicts q = .error e) :
    ∃ a b, e = .ambiguousScope q a b := by
  obtain ⟨a, b, -, rfl⟩ := checkConflicts_eq_error_iff.mp h
  exact ⟨a, b, rfl⟩

namespace Lists

theorem pointers_ne_none_iff (h : c.Lists l) : l.pointers s ≠ none ↔ ∃ r ∈ c.records, r.scope = s := by
  constructor
  · intro hs
    obtain ⟨p, hp⟩ := Option.ne_none_iff_exists'.mp hs
    exact ⟨p.record s, (h.mem _).mpr hp, rfl⟩
  · rintro ⟨r, hr, rfl⟩
    rw [(h.mem r).mp hr]
    exact Option.some_ne_none _

/-- **A query passes the check if each two of the recorded scopes that it includes are nested.** -/
theorem checkConflicts_eq_ok_iff (h : c.Lists l) :
    c.checkConflicts q = .ok () ↔ l.Unambiguous q := by
  have covered : ∀ a, a ∈ c.covered q ↔ l.pointers a ≠ none ∧ a.within q := fun a => by
    rw [mem_covered, h.pointers_ne_none_iff]
  -- covered scopes are well formed, so each of them includes itself
  have refl : ∀ a ∈ c.covered q, a.within a := fun a ha => by
    have wf := (h.wellFormed a ((covered a).mp ha).1).1
    exact (wf.within_iff_subset wf).mpr (List.Subset.refl _)
  rw [checkConflicts_eq_ok_iff_strangers, strangers?_eq_none_iff_forall refl]
  constructor
  · intro nested a b ha hb haq hbq
    exact nested a ((covered a).mpr ⟨ha, haq⟩) b ((covered b).mpr ⟨hb, hbq⟩)
  · intro unambiguous a ha b hb
    obtain ⟨ha, haq⟩ := (covered a).mp ha
    obtain ⟨hb, hbq⟩ := (covered b).mp hb
    exact unambiguous a b ha hb haq hbq

/-! ## Single records

A ledger knows scopes by their canonical forms, a catalog is searched for any spelling. As the
records are kept in canonical form, a search finds the record of the canonical form, and there is no
other. -/

theorem wellFormed_scope (h : c.Lists l) {r : ScopeRecord} (hr : r ∈ c.records) :
    r.scope.WellFormed ∧ r.scope.canonical = r.scope :=
  h.wellFormed r.scope (h.pointers_ne_none_iff.mpr ⟨r, hr, rfl⟩)

/-- The record of a scope is kept in canonical form, whatever spelling is asked for. -/
theorem same_iff (h : c.Lists l) (hs : s.WellFormed) {r : ScopeRecord} (hr : r ∈ c.records) :
    r.scope.same s ↔ r.scope = s.canonical := by
  obtain ⟨wf, canonical⟩ := h.wellFormed_scope hr
  rw [wf.same_iff_canonical_eq hs, canonical]

/-- **A catalog finds of a scope what the ledger has of it.** -/
theorem find?_eq (h : c.Lists l) (hs : s.WellFormed) :
    c.find? s = (l.pointers s.canonical).map fun p => p.record s.canonical := by
  rw [find?]
  cases hf : c.records.find? (·.scope.same s) with
  | none =>
      cases hp : l.pointers s.canonical with
      | none => rfl
      | some p =>
          have hr : p.record s.canonical ∈ c.records := (h.mem _).mpr hp
          exact absurd hs.same_canonical (List.find?_eq_none.mp hf _ hr)
  | some r =>
      have hr := List.mem_of_find?_eq_some hf
      have same := List.find?_some hf
      have scope := (h.same_iff hs hr).mp same
      rw [← scope, (h.mem r).mp hr]
      rfl

theorem scope_of_find? (h : c.Lists l) (hs : s.WellFormed) {r : ScopeRecord} (find : c.find? s = some r) :
    r.scope = s.canonical := by
  rw [h.find?_eq hs, Option.map_eq_some_iff] at find
  obtain ⟨p, -, rfl⟩ := find
  rfl

/-- A catalog shows of a scope what the ledger shows of it. -/
theorem find?_bind_active (h : c.Lists l) (hs : s.WellFormed) :
    (c.find? s).bind ScopeRecord.active = l.shown s.canonical := by
  rw [h.find?_eq hs, Ledger.shown]
  cases l.pointers s.canonical <;> rfl

theorem shown_of_mem (h : c.Lists l) {r : ScopeRecord} (hr : r ∈ c.records) :
    l.shown r.scope.canonical = r.active := by
  rw [(h.wellFormed_scope hr).2, Ledger.shown, (h.mem r).mp hr]
  rfl

/-- A scope without a record counts as one with a blank record. -/
theorem find?_getD_blank (h : c.Lists l) (hs : s.WellFormed) :
    (c.find? s).getD (.blank s) = l.record s := by
  rw [h.find?_eq hs, Ledger.record]
  cases l.pointers s.canonical <;> rfl

/-- **An activation passes the check if the ledger allows it.** -/
theorem checkActivation_eq_ok_iff (h : c.Lists l) (hs : s.WellFormed) {revision : Option Revision}
    {n : Revision} :
    c.checkActivation s revision = .ok n ↔ ∃ p, l.Activates s revision p n := by
  rw [checkActivation, bind_eq_ok_iff, h.find?_eq hs]
  cases hp : l.pointers s.canonical with
  | none =>
      constructor
      · rintro ⟨_, -, ⟨⟩⟩
      · rintro ⟨p, activates⟩
        rw [activates.recorded] at hp
        cases hp
  | some p =>
      simp only [Option.map_some]
      constructor
      · rintro ⟨⟨⟩, unambiguous, passes⟩
        split at passes
        · next known =>
          obtain ⟨positive, written⟩ := ScopeRecord.hasRevision_iff.mp known
          cases passes
          exact ⟨p, h.checkConflicts_eq_ok_iff.mp unambiguous, hp, rfl, positive, written⟩
        · cases passes
      · rintro ⟨p', activates⟩
        cases hp.symm.trans activates.recorded
        obtain rfl := activates.revision
        exact ⟨(), h.checkConflicts_eq_ok_iff.mpr activates.unambiguous,
          if_pos (ScopeRecord.hasRevision_iff.mpr ⟨activates.positive, activates.written⟩)⟩

end Lists

/-! ## Looking ahead

A batch is checked before anything is written, against the records as they are going to be.
`noteWrite` advances the record of a scope in a list or adds one, and does to the list what a write
to the scope does to the ledger (`Lists.noteWrite`). -/

/-- Noting a write leaves the recorded scopes in their places, and puts a new one at the end. -/
theorem scope_noteWrite (s : Scope) (rs : List ScopeRecord) :
    (noteWrite s rs).map ScopeRecord.scope =
      rs.map ScopeRecord.scope ++ if rs.any (·.scope.same s) then [] else [s.canonical] := by
  induction rs with
  | nil => rfl
  | cons r rs ih =>
      rw [noteWrite]
      by_cases same : r.scope.same s
      · rw [if_pos same]
        simp [same, ScopeRecord.advance]
      · rw [if_neg same, List.map_cons, ih]
        simp [same]

/-- Where a scope has one record at most, that one is advanced, and the others are as they were. -/
theorem mem_noteWrite {rs : List ScopeRecord} {r : ScopeRecord}
    (single : rs.Pairwise fun a b => a.scope.same s → ¬ b.scope.same s) :
    r ∈ noteWrite s rs ↔ (r ∈ rs ∧ ¬ r.scope.same s) ∨
      r = ((rs.find? (·.scope.same s)).getD (.blank s)).advance := by
  induction rs with
  | nil => simp [noteWrite]
  | cons r' rs ih =>
      obtain ⟨first, rest⟩ := List.pairwise_cons.mp single
      rw [noteWrite, List.find?_cons]
      by_cases same : r'.scope.same s
      · rw [if_pos same, same, List.mem_cons, List.mem_cons]
        constructor
        · rintro (rfl | hr)
          · exact .inr rfl
          · exact .inl ⟨.inr hr, first r hr same⟩
        · rintro (⟨rfl | hr, other⟩ | rfl)
          · exact absurd same other
          · exact .inr hr
          · exact .inl rfl
      · rw [if_neg same, Bool.eq_false_iff.mpr same, List.mem_cons, List.mem_cons, ih rest]
        constructor
        · rintro (rfl | ⟨hr, other⟩ | rfl)
          · exact .inl ⟨.inl rfl, same⟩
          · exact .inl ⟨.inr hr, other⟩
          · exact .inr rfl
        · rintro (⟨rfl | hr, other⟩ | rfl)
          · exact .inl rfl
          · exact .inr (.inl ⟨hr, other⟩)
          · exact .inr (.inr rfl)

namespace Lists

theorem noteWrite (h : c.Lists l) (hs : s.WellFormed) :
    Lists ⟨noteWrite s c.records⟩ (l.advance s.canonical) := by
  -- a scope has one record at most, so noting a write at the first one notes it at all of them
  have single : c.records.Pairwise fun a b => a.scope.same s → ¬ b.scope.same s := by
    refine (List.pairwise_map.mp h.distinct).imp_of_mem fun ha hb ne same same' => ne ?_
    rw [(h.same_iff hs ha).mp same, (h.same_iff hs hb).mp same']
  -- the records, that they are distinct, and that the scopes are canonical
  refine ⟨fun r => ?_, ?_, fun r hr => ?_⟩
  · rw [mem_noteWrite single, ← find?, h.find?_getD_blank hs, Ledger.record_advance,
      Ledger.pointers_advance]
    -- the record of the scope itself, and the records of others
    by_cases scope : r.scope = s.canonical
    · rw [if_pos scope]
      constructor
      · rintro (⟨hr, other⟩ | rfl)
        · exact absurd ((h.same_iff hs hr).mpr scope) other
        · rfl
      · intro eq
        refine .inr ?_
        cases r
        cases scope
        cases eq
        rfl
    · rw [if_neg scope, ← h.mem r]
      constructor
      · rintro (⟨hr, -⟩ | rfl)
        · exact hr
        · exact absurd rfl scope
      · exact fun hr => .inl ⟨hr, mt (h.same_iff hs hr).mp scope⟩
  · rw [scope_noteWrite]
    split
    · rw [List.append_nil]
      exact h.distinct
    · next new =>
      refine List.nodup_append.mpr ⟨h.distinct, by simp, fun a ha b hb eq => new ?_⟩
      obtain ⟨r, hr, rfl⟩ := List.mem_map.mp ha
      rw [List.mem_singleton.mp hb] at eq
      exact List.any_eq_true.mpr ⟨r, hr, (h.same_iff hs hr).mpr eq⟩
  · rw [Ledger.pointers_advance] at hr
    by_cases eq : r = s.canonical
    · rw [eq]
      exact ⟨hs.canonical, Scope.WellFormed.canonical_idem s⟩
    · rw [if_neg eq] at hr
      exact h.wellFormed r hr

/-- **The catalog after some writes lists the ledger after them.** -/
theorem afterWrites (h : c.Lists l) {scopes : List Scope} (wf : ∀ s ∈ scopes, s.WellFormed) :
    (c.afterWrites scopes).Lists (scopes.foldl (fun l s => l.advance s.canonical) l) := by
  rw [Catalog.afterWrites]
  obtain ⟨records⟩ := c
  induction scopes generalizing records l with
  | nil => exact h
  | cons s scopes ih =>
      obtain ⟨hs, wf⟩ := List.forall_mem_cons.mp wf
      exact ih wf _ (h.noteWrite hs)

end Lists

end Catalog

end ScopedConfig
