import ScopedConfig.Proofs.ScopeSameness
import ScopedConfig.Proofs.Visibility

/-!
# Falling back is a row of exact reads

A read that falls back looks for ambiguities once, and then in one scope after another, among the
records that it has scanned once. Reads of these scopes alone, each with a scan and a check of its
own, find the same: the first of them that finds something decides (`Store.firstHit_run`), and none of
them is ambiguous, because a part of the parameters includes no scope that all of them do not include
(`Ledger.Unambiguous.of_within`). `System.fallback_is_first_exact_hit` says so of every store that
calls lead to.
-/

namespace ScopedConfig

open Layout Store

/-- The first result that is not that there is nothing. -/
def firstFound : List (Except StoreError (Option Hit)) → Except StoreError (Option Hit)
  | [] => .ok none
  | .ok none :: rest => firstFound rest
  | found :: _ => found

variable {U : Scope → Prop} {t : Table} {l : Ledger} {c : Catalog} {s r : Scope}
  {params : List Parameter} {name : String}

/-! ## Parts of the parameters

A scope that some of the parameters include is included by all of them. So if two scopes clash for a
part of the parameters they clash for all of them, and a query that is not ambiguous has no part
that is. -/

theorem Scope.WellFormed.take_within (hs : s.WellFormed) (k : Nat) :
    (Scope.mk (s.params.take k)).within s :=
  ((hs.take k).within_iff_subset hs).mpr (List.take_sublist k s.params).subset

/-- Some of the parameters name the scope of as many of them. -/
theorem Store.scopeOf_take (hs : scopeOf params = .ok s) (k : Nat) :
    scopeOf (params.take k) = .ok ⟨s.params.take k⟩ := by
  obtain ⟨wf, rfl⟩ := Scope.ofParameters_eq_ok_iff.mp (scopeOf_eq_ok_iff.mp hs)
  apply scopeOf_eq_ok_iff.mpr
  apply Scope.ofParameters_eq_ok_iff.mpr
  exact ⟨wf.take k, List.map_take.symm⟩

theorem Store.length_of_scopeOf (hs : scopeOf params = .ok s) : params.length = s.params.length := by
  obtain ⟨-, rfl⟩ := Scope.ofParameters_eq_ok_iff.mp (scopeOf_eq_ok_iff.mp hs)
  exact List.length_map _

/-- **Whatever a part of an unambiguous query includes, the query does.** -/
theorem Ledger.Unambiguous.of_within (wf : ∀ a, l.pointers a ≠ none → a.WellFormed)
    (hr : r.WellFormed) (hs : s.WellFormed) (h : l.Unambiguous s) (within : r.within s) :
    l.Unambiguous r := by
  intro a b ha hb har hbr
  exact h a b ha hb ((wf a ha).within_trans hr hs har within) ((wf b hb).within_trans hr hs hbr within)

/-- Some of the parameters pass a check that all of them pass. -/
theorem Catalog.Lists.checkConflicts_take (h : c.Lists l) (hs : s.WellFormed)
    (passes : c.checkConflicts s = .ok ()) (k : Nat) :
    c.checkConflicts ⟨s.params.take k⟩ = .ok () := by
  rw [h.checkConflicts_eq_ok_iff] at passes ⊢
  exact passes.of_within (fun a ha => (h.wellFormed a ha).1) (hs.take k) hs (hs.take_within k)

/-! ## Searches

A search goes through the scopes until one of them has something, and `firstFound` does the same
with what is found in each. Sessions are left behind here: what is found in a scope is a function of
the catalog and the table (`foundIn`). -/

namespace Store

/-- What a search of one scope finds. -/
def foundIn (c : Catalog) (name : String) (t : Table) (s : Scope) : Except StoreError (Option Hit) :=
  ((firstHit c name [s]).run t).1

theorem foundIn_of_inactive (inactive : (c.find? s).bind ScopeRecord.active = none) :
    foundIn c name t s = .ok none := by
  rw [foundIn, firstHit_cons_of_inactive inactive]
  rfl

/-- It finds what there is as of the active revision. -/
theorem foundIn_of_active {record : ScopeRecord} {n : Revision} (find : c.find? s = some record)
    (active : record.active = some n) :
    foundIn c name t s = (entryOf (entryPrefix name s.id)
      (t.floor (entryPrefix name s.id) (entryKey name s.id n))).map fun entry =>
        entry.map (hitOf record.scope) := by
  rw [foundIn, firstHit_cons_of_active find active, Session.run_bind, entryAsOf_run]
  cases entryOf _ _ with
  | error e => rfl
  | ok entry => cases entry <;> rfl

/-- **A search is one search after another.** -/
theorem firstHit_run (c : Catalog) (name : String) (scopes : List Scope) (t : Table) :
    (firstHit c name scopes).run t = (firstFound (scopes.map (foundIn c name t)), t) := by
  induction scopes with
  | nil => rfl
  | cons s rest ih =>
      rw [List.map_cons]
      cases shown : (c.find? s).bind ScopeRecord.active with
      | none =>
          rw [firstHit_cons_of_inactive shown, foundIn_of_inactive shown]
          exact ih
      | some n =>
          -- Where nothing is found the search goes on, in the session as in the list.
          obtain ⟨record, find, active⟩ := Option.bind_eq_some_iff.mp shown
          rw [firstHit_cons_of_active find active, foundIn_of_active find active, Session.run_bind,
            entryAsOf_run]
          cases entryOf _ _ with
          | error e => rfl
          | ok entry =>
              cases entry with
              | none => exact ih
              | some entry => rfl

theorem foundIn_error {e : StoreError} (h : foundIn c name t s = .error e) : e = .undecodable :=
  firstHit_failsOnly _ _ _ _ _ _ (Prod.ext h rfl)

/-- A search fails only with a failure of one of its parts. -/
theorem firstFound_error {found : List (Except StoreError (Option Hit))} {e : StoreError}
    (h : firstFound found = .error e) : .error e ∈ found := by
  induction found with
  | nil => cases h
  | cons first rest ih =>
      cases first with
      | error e' =>
          cases h
          exact List.mem_cons_self
      | ok hit =>
          cases hit with
          | none => exact List.mem_cons_of_mem _ (ih h)
          | some hit => cases h

/-- The scopes to fall back to, from all parameters to none of them. -/
theorem map_fallbacks {α : Type} (s : Scope) (f : Scope → α) :
    s.fallbacks.map f =
      (List.range (s.params.length + 1)).reverse.map fun k => f ⟨s.params.take k⟩ := by
  have reverse : (List.range (s.params.length + 1)).reverse =
      (List.range (s.params.length + 1)).map fun dropped => s.params.length - dropped := by
    apply List.ext_getElem <;> simp
  rw [reverse, Scope.fallbacks, List.map_map, List.map_map]
  rfl

/-! ## Reads of what is active

A read scans the records, checks its scope and searches. Whether it falls back decides only which
scopes are searched (`candidates`), so the scan and the check come out the same either way. -/

/-- A batch of one read of what is active. -/
def readCurrent (settings : Settings) (ids : Nat → BatchId) (fallback : Fallback) (name : String)
    (params : List Parameter) : Session (List Outcome) :=
  execute { settings with fallback := fallback } ids [.read ⟨name, params, none⟩]

variable {settings : Settings} {ids : Nat → BatchId} {fallback : Fallback}

/-- A read that is not ambiguous searches its scope and those that it falls back to. -/
theorem readCurrent_run (run : catalog.run t = (.ok c, t)) (hs : scopeOf params = .ok s)
    (passes : c.checkConflicts s = .ok ()) :
    (readCurrent settings ids fallback name params).run t =
      ((firstFound ((candidates fallback s).map (foundIn c name t))).map
        fun hit => [.value ⟨name, s, hit⟩], t) := by
  rw [readCurrent, execute_current_eq, Session.run_bind_of_ok run, hs]
  show ((Session.done (c.checkConflicts s)).bind _).run t = _
  rw [passes]
  show ((firstHit c name (candidates fallback s)).bind _).run t = _
  rw [Session.run_bind, firstHit_run]
  cases firstFound _ <;> rfl

/-- A read that does not fall back searches its scope only. -/
theorem readCurrent_none_run (run : catalog.run t = (.ok c, t)) (hs : scopeOf params = .ok s)
    (passes : c.checkConflicts s = .ok ()) :
    (readCurrent settings ids .none name params).run t =
      ((foundIn c name t s).map fun hit => [.value ⟨name, s, hit⟩], t) := by
  have single : foundIn c name t s = firstFound [foundIn c name t s] :=
    congrArg Prod.fst (firstHit_run c name [s] t)
  rw [readCurrent_run run hs passes, single]
  rfl

/-- **Whether a read is ambiguous is for the check to say, whatever it would fall back to.** -/
theorem readCurrent_ambiguous_iff (run : catalog.run t = (.ok c, t)) {q a b : Scope} :
    (readCurrent settings ids fallback name params).run t = (.error (.ambiguousScope q a b), t) ↔
      ∃ s, scopeOf params = .ok s ∧ c.checkConflicts s = .error (.ambiguousScope q a b) := by
  cases hs : scopeOf params with
  | error e =>
      obtain ⟨e', -, rfl⟩ := scopeOf_eq_error_iff.mp hs
      rw [readCurrent, execute_current_eq, Session.run_bind_of_ok run, hs]
      simp [Session.bind, Session.run]
  | ok s =>
      cases passes : c.checkConflicts s with
      | error e =>
          rw [readCurrent, execute_current_eq, Session.run_bind_of_ok run, hs]
          show ((Session.done (c.checkConflicts s)).bind _).run t = _ ↔ _
          rw [passes]
          simp [Session.bind, Session.run, passes]
      | ok u =>
          -- beyond the check only what is stored can be at fault
          refine iff_of_false (fun failed => ?_) (by simp [passes])
          rw [readCurrent_run run hs passes, Prod.mk.injEq] at failed
          cases found : firstFound ((candidates fallback s).map (foundIn c name t)) with
          | error e =>
              obtain ⟨r, -, undecodable⟩ := List.mem_map.mp (firstFound_error found)
              rw [found, foundIn_error undecodable] at failed
              cases failed.1
          | ok hit =>
              rw [found] at failed
              cases failed.1

theorem checkConflicts_of_unambiguous (run : catalog.run t = (.ok c, t)) (hs : scopeOf params = .ok s)
    (unambiguous : ∀ q a b, (readCurrent settings ids fallback name params).run t ≠
      (.error (.ambiguousScope q a b), t)) : c.checkConflicts s = .ok () := by
  cases conflicts : c.checkConflicts s with
  | ok u => rfl
  | error e =>
      obtain ⟨a, b, rfl⟩ := Catalog.exists_of_checkConflicts conflicts
      exact absurd ((readCurrent_ambiguous_iff run).mpr ⟨s, hs, conflicts⟩) (unambiguous s a b)

end Store

/-! ## Schedules

All of the reads compared here meet the table that a schedule leads to, on which the scan answers.
-/

namespace System

variable {ι : Type} [DecidableEq ι]

/-- **A read that falls back finds what reads of exact scopes find, one after another.** Whether it is
ambiguous, and how, does not depend on falling back. If it is not, no part of its parameters is, from all
of them down to none; and what is found first among the reads of these is what it finds. -/
theorem fallback_is_first_exact_hit (sep : Scope.Separated U) (moves : List (Move ι))
    (within : ∀ h c, .call h c ∈ moves → c.Within U) (settings : Settings) (ids : Nat → BatchId)
    (name : String) (params : List Parameter) :
    (∀ q a b,
      (readCurrent settings ids .lookup name params).run (run moves).table =
        (.error (.ambiguousScope q a b), (run moves).table) ↔
      (readCurrent settings ids .none name params).run (run moves).table =
        (.error (.ambiguousScope q a b), (run moves).table)) ∧
    ∀ s, scopeOf params = .ok s →
      (∀ q a b, (readCurrent settings ids .none name params).run (run moves).table ≠
        (.error (.ambiguousScope q a b), (run moves).table)) →
      ∃ found : Nat → Except StoreError (Option Hit),
        (∀ k ≤ params.length,
          (readCurrent settings ids .none name (params.take k)).run (run moves).table =
            ((found k).map fun hit => [.value ⟨name, ⟨s.params.take k⟩, hit⟩], (run moves).table)) ∧
        (∀ k e, found k = .error e → e = .undecodable) ∧
        ((∀ h c, .call h c ∈ moves → c.Fits) → ∀ k, ∃ hit, found k = .ok hit) ∧
        (readCurrent settings ids .lookup name params).run (run moves).table =
          ((firstFound ((List.range (params.length + 1)).reverse.map found)).map fun hit =>
            [.value ⟨name, s, hit⟩], (run moves).table) := by
  obtain ⟨replies, l, traced⟩ := run_traced sep moves within
  have depicts := traced.trace.depicts
  obtain ⟨c, catalog, lists⟩ := depicts.catalog_run sep
  refine ⟨fun q a b => ?_, fun s hs unambiguous => ?_⟩
  · rw [readCurrent_ambiguous_iff catalog, readCurrent_ambiguous_iff catalog]
  have passes := checkConflicts_of_unambiguous catalog hs unambiguous
  refine ⟨fun k => foundIn c name (run moves).table ⟨s.params.take k⟩, fun k _ => ?_,
    fun k e => foundIn_error, fun fits k => ?_, ?_⟩
  · exact readCurrent_none_run catalog (scopeOf_take hs k)
      (lists.checkConflicts_take (wellFormed_of_scopeOf hs) passes k)
  · obtain ⟨hit, answers⟩ := depicts.firstHit_answers
      (traced.trace.storable (run_each moves fits).2) c name [⟨s.params.take k⟩]
    exact ⟨hit, congrArg Prod.fst answers⟩
  · rw [readCurrent_run catalog hs passes, length_of_scopeOf hs, ← map_fallbacks]
    rfl

/-- A scope that has nothing active falls back to the one that has. -/
theorem shadow_falls_back :
    (readCurrent {} (.stamped 2) .lookup "limit" [⟨"env", .exactly "prod"⟩]).run
        (run (published ++ shadow)).table =
      (.ok [.value ⟨"limit", ⟨[("env", "prod")]⟩, some ⟨.global, 1, .integer 1⟩⟩],
        (run (published ++ shadow)).table) := by
  have runs : (((readCurrent {} (.stamped 2) .none "limit" [⟨"env", .exactly "prod"⟩]).run
      (run (published ++ shadow)).table).1, ((readCurrent {} (.stamped 2) .none "limit" []).run
      (run (published ++ shadow)).table).1) =
        (.ok [.value ⟨"limit", ⟨[("env", "prod")]⟩, none⟩],
          .ok [.value ⟨"limit", .global, some ⟨.global, 1, .integer 1⟩⟩]) := by decide +kernel
  simp only [Prod.mk.injEq] at runs
  obtain ⟨above, below⟩ := runs
  obtain ⟨-, falls⟩ := fallback_is_first_exact_hit Scope.separated_sample (published ++ shadow)
    shadow_within {} (.stamped 2) "limit" [⟨"env", .exactly "prod"⟩]
  obtain ⟨found, exact, -, -, first⟩ := falls ⟨[("env", "prod")]⟩ rfl fun q a b ambiguous => by
    rw [ambiguous] at above
    cases above
  -- nothing is active in the scope itself, and the one without parameters is next
  have one : found 1 = .ok none := by
    have run := (congrArg Prod.fst (exact 1 (by decide))).symm.trans above
    cases hit : found 1 <;> rw [hit] at run <;> cases run
    rfl
  have zero : found 0 = .ok (some ⟨.global, 1, .integer 1⟩) := by
    have run := (congrArg Prod.fst (exact 0 (by decide))).symm.trans below
    cases hit : found 0 <;> rw [hit] at run <;> cases run
    rfl
  rw [first, show (List.range (([⟨"env", .exactly "prod"⟩] : List Parameter).length + 1)).reverse.map
    found = [found 1, found 0] from rfl, one, zero]
  rfl

end System

end ScopedConfig
