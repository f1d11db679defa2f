import ScopedConfig.Proofs.Filters
import ScopedConfig.Proofs.Publication

/-!
# Listings show each scope once

A listing goes through the records of the scopes that its filter admits, in the order of how these are
written, and looks up a property as of the active revision of each. What it answers is a function of these
records (`Store.readEach_run`): there is a reading for each that has an entry
(`Store.mem_readingsOf_iff`), in the order of the records (`Store.queries_sublist`), and fewer records
have fewer readings (`Store.readingsOf_sublist`). A read that does not fall back looks up the same entry
(`Store.foundIn_eq_activeEntry`).
-/

namespace ScopedConfig

open Layout Store

variable {U : Scope → Prop} {t : Table} {l : Ledger} {c : Catalog} {s : Scope} {r : ScopeRecord}
  {rs rs' : List ScopeRecord} {x : Reading} {xs : List Reading} {name : String} {i : ScopeId}
  {n : Revision} {e : Entry} {terms : List Parameter} {filter : Filter} {coverage : Coverage}

/-! ## The last entry

What a floor look-up finds among rows is said of entries here: there is one at a revision up to the
one asked for, and none between. -/

namespace Table

/-- Of the entries of a property at an identity up to revision `n`, the one at `m` is the last. -/
structure LastEntry (t : Table) (name : String) (i : ScopeId) (n m : Revision) (e : Entry) : Prop where
  stored : t.HasEntry name i m e
  le : m ≤ n
  last : ∀ k ≤ n, t.get? (entryKey name i k) ≠ none → k ≤ m

namespace Depicts

theorem mem_scan_entryPrefix_iff (h : t.Depicts U l) {row : Row} :
    row ∈ t.scan (entryPrefix name i) ↔
      ∃ m, row.1 = entryKey name i m ∧ t.get? (entryKey name i m) = some row.2 := by
  rw [mem_scan_iff]
  constructor
  · exact fun ⟨mem, start⟩ => exists_entryKey h.key_cases mem start
  · rintro ⟨m, key, stored⟩
    exact ⟨mem_rows_iff.mpr (key ▸ stored), key ▸ startsWith_entryPrefix_entryKey name i m⟩

/-- **A look-up as of a revision finds the last entry up to it.** -/
theorem entryOf_floor_eq_some_iff (h : t.Depicts U l) :
    entryOf (entryPrefix name i) (t.floor (entryPrefix name i) (entryKey name i n)) = .ok (some e) ↔
      ∃ m, t.LastEntry name i n m e := by
  constructor
  · intro found
    cases hf : t.floor (entryPrefix name i) (entryKey name i n) with
    | none =>
        rw [hf] at found
        cases found
    | some row =>
        obtain ⟨-, mem, le, last⟩ := floor_eq_some_iff.mp hf
        obtain ⟨m, key, stored⟩ := h.mem_scan_entryPrefix_iff.mp mem
        rw [hf, entryOf, key, revision?_entryKey, if_pos Option.isSome_some] at found
        have decoded : decodeEntry row.2.value = .ok e := by
          cases decoded : decodeEntry row.2.value <;> rw [decoded] at found <;> cases found
          rfl
        -- no entry lies between: its row would have been found in place of this one
        refine ⟨m, ⟨row.2, stored, decodeEntry_eq_ok_iff.mp decoded⟩, entryKey_le_iff.mp (key ▸ le),
          fun k le there => ?_⟩
        obtain ⟨other, hk⟩ := Option.ne_none_iff_exists'.mp there
        have mem : (entryKey name i k, other) ∈ t.scan (entryPrefix name i) :=
          h.mem_scan_entryPrefix_iff.mpr ⟨k, rfl, hk⟩
        exact entryKey_le_iff.mp (key ▸ last _ mem (entryKey_le_iff.mpr le))
  · rintro ⟨m, ⟨stored, hm, unpack⟩, le, last⟩
    have floor : t.floor (entryPrefix name i) (entryKey name i n) = some (entryKey name i m, stored) := by
      refine floor_eq_some_iff.mpr ⟨startsWith_entryPrefix_entryKey name i n,
        h.mem_scan_entryPrefix_iff.mpr ⟨m, rfl, hm⟩, entryKey_le_iff.mpr le, fun row mem le => ?_⟩
      obtain ⟨k, key, there⟩ := h.mem_scan_entryPrefix_iff.mp mem
      rw [key] at le ⊢
      exact entryKey_le_iff.mpr (last k (entryKey_le_iff.mp le) (there ▸ Option.some_ne_none _))
    rw [floor, entryOf, revision?_entryKey, if_pos Option.isSome_some, decodeEntry_eq_ok_iff.mpr unpack]
    rfl

end Depicts

end Table

/-! ## Readings of records

A listing is a loop over records with a request for each. Run on a table that nobody else touches it
is a recursion over the records (`readingsOf`), and what it answers is shown by induction on them.
-/

namespace Store

/-- The entry of a property as of the active revision of a record. -/
def activeEntry (name : String) (t : Table) (r : ScopeRecord) : Except StoreError (Option Entry) :=
  match r.active with
  | none => .ok none
  | some n => entryOf (entryPrefix name r.scope.id)
      (t.floor (entryPrefix name r.scope.id) (entryKey name r.scope.id n))

theorem activeEntry_of_active (active : r.active = some n) : activeEntry name t r =
    entryOf (entryPrefix name r.scope.id)
      (t.floor (entryPrefix name r.scope.id) (entryKey name r.scope.id n)) := by
  rw [activeEntry, active]

theorem activeEntry_of_inactive (inactive : r.active = none) : activeEntry name t r = .ok none := by
  rw [activeEntry, inactive]

theorem activeEntry_error {err : StoreError} (h : activeEntry name t r = .error err) :
    err = .undecodable := by
  cases active : r.active with
  | none =>
      rw [activeEntry_of_inactive active] at h
      cases h
  | some n =>
      rw [activeEntry_of_active active] at h
      exact entryOf_error h

/-- The entry as of the active revision, by what is stored. -/
theorem activeEntry_eq_some_iff (h : t.Depicts U l) : activeEntry name t r = .ok (some e) ↔
    ∃ n m, r.active = some n ∧ t.LastEntry name r.scope.id n m e := by
  cases active : r.active with
  | none => simp [activeEntry_of_inactive active]
  | some n => simp [activeEntry_of_active active, h.entryOf_floor_eq_some_iff]

/-- **A read that does not fall back looks up the same entry.** -/
theorem foundIn_eq_activeEntry (lists : c.Lists l) (hs : s.WellFormed) (hr : r ∈ c.records)
    (same : r.scope.same s) :
    foundIn c name t s = (activeEntry name t r).map fun entry => entry.map (hitOf r.scope) := by
  have find : c.find? s = some r := (lists.find?_eq_some_iff hs).mpr ⟨hr, same⟩
  cases active : r.active with
  | none =>
      rw [foundIn_of_inactive (by rw [find]; exact active), activeEntry_of_inactive active]
      rfl
  | some n =>
      have id : s.id = r.scope.id := by rw [(lists.same_iff hs hr).mp same, Scope.id_canonical]
      rw [foundIn_of_active find active, activeEntry_of_active active, id]

/-- What a listing shows of a record that has an entry. -/
def readingOf (name : String) (r : ScopeRecord) (e : Entry) : Reading :=
  ⟨name, r.scope, some (hitOf r.scope e)⟩

/-- What it shows of some records. -/
def readingsOf (name : String) (t : Table) : List ScopeRecord → Except StoreError (List Reading)
  | [] => .ok []
  | r :: rs => do
    let entry ← activeEntry name t r
    let readings ← readingsOf name t rs
    return (entry.map (readingOf name r)).toList ++ readings

/-- **What a listing answers depends on the records that it goes through.** -/
theorem readEach_run (name : String) (rs : List ScopeRecord) (t : Table) :
    (readEach name rs).run t = (readingsOf name t rs, t) := by
  induction rs with
  | nil => rfl
  | cons r rs ih =>
      rw [readingsOf]
      cases active : r.active with
      | none =>
          rw [readEach_cons_of_inactive active, activeEntry_of_inactive active, ih]
          cases readingsOf name t rs <;> rfl
      | some n =>
          rw [readEach_cons_of_active active, activeEntry_of_active active, Session.run_bind,
            entryAsOf_run]
          cases entryOf _ _ with
          | error e => rfl
          | ok entry =>
              simp only [Session.run_bind, ih]
              cases readingsOf name t rs <;> rfl

theorem readingsOf_cons_eq_ok_iff : readingsOf name t (r :: rs) = .ok xs ↔
    ∃ entry readings, activeEntry name t r = .ok entry ∧ readingsOf name t rs = .ok readings ∧
      xs = (entry.map (readingOf name r)).toList ++ readings := by
  simp only [readingsOf, bind_eq_ok_iff]
  simp [pure, Except.pure, eq_comm]

theorem readingsOf_error {err : StoreError} (h : readingsOf name t rs = .error err) :
    err = .undecodable := by
  induction rs with
  | nil => cases h
  | cons r rs ih =>
      rw [readingsOf] at h
      rcases bind_eq_error_iff.mp h with first | ⟨entry, -, h⟩
      · exact activeEntry_error first
      · rcases bind_eq_error_iff.mp h with rest | ⟨readings, -, done⟩
        · exact ih rest
        · cases done

/-- **There is a reading for each record that has an entry**, and no other. -/
theorem mem_readingsOf_iff (h : readingsOf name t rs = .ok xs) :
    x ∈ xs ↔ ∃ r ∈ rs, ∃ e, activeEntry name t r = .ok (some e) ∧ x = readingOf name r e := by
  induction rs generalizing xs with
  | nil =>
      cases h
      simp
  | cons r rs ih =>
      obtain ⟨entry, readings, first, rest, rfl⟩ := readingsOf_cons_eq_ok_iff.mp h
      rw [List.mem_append, ih rest, List.exists_mem_cons_iff, first]
      cases entry <;> simp

/-- **Readings come in the order of the records.** -/
theorem queries_sublist (h : readingsOf name t rs = .ok xs) :
    (xs.map Reading.query).Sublist (rs.map ScopeRecord.scope) := by
  induction rs generalizing xs with
  | nil =>
      cases h
      exact .slnil
  | cons r rs ih =>
      obtain ⟨entry, readings, first, rest, rfl⟩ := readingsOf_cons_eq_ok_iff.mp h
      cases entry with
      | none => exact (ih rest).cons _
      | some e => exact (ih rest).cons_cons _

/-- **Fewer records, fewer readings.** -/
theorem readingsOf_sublist (sub : rs'.Sublist rs) (h : readingsOf name t rs = .ok xs) :
    ∃ xs', readingsOf name t rs' = .ok xs' ∧ xs'.Sublist xs := by
  induction sub generalizing xs with
  | slnil => exact ⟨xs, h, .refl _⟩
  | cons r _ ih =>
      obtain ⟨entry, readings, -, rest, rfl⟩ := readingsOf_cons_eq_ok_iff.mp h
      obtain ⟨xs', ok, sub⟩ := ih rest
      exact ⟨xs', ok, sub.trans (List.sublist_append_right _ _)⟩
  | cons_cons r _ ih =>
      obtain ⟨entry, readings, first, rest, rfl⟩ := readingsOf_cons_eq_ok_iff.mp h
      obtain ⟨xs', ok, sub⟩ := ih rest
      exact ⟨_, readingsOf_cons_eq_ok_iff.mpr ⟨entry, xs', first, ok, rfl⟩,
        (List.Sublist.refl _).append sub⟩

/-! ## What a filter admits

The records are selected and put into the order of how their scopes are written. Selecting keeps
that order, so the answer to the narrower coverage is a part of the answer to the wider one. -/

/-- The records come in the order of how their scopes are written. -/
theorem sorted_admitted (c : Catalog) (filter : Filter) (coverage : Coverage) :
    ((admitted c filter coverage).map ScopeRecord.scope).Pairwise fun a b => a.text ≤ b.text := by
  have sorted : (admitted c filter coverage).Pairwise fun r q => decide (r.scope.text ≤ q.scope.text) :=
    sorted_sortBy (fun r q => by simpa using String.le_total r.scope.text q.scope.text)
      (fun r q u => by simpa using String.le_trans) _
  exact List.pairwise_map.mpr (sorted.imp of_decide_eq_true)

/-- The scopes that fit exactly stand in the order that they have among all that are admitted. -/
theorem admitted_exactly_sublist (c : Catalog) (filter : Filter) :
    (admitted c filter .exactly).Sublist (admitted c filter .covering) := by
  have select := filterMap_sortBy_text (f := Option.guard fun r => filter.fits r.scope)
    (fun h => by rw [(Option.guard_eq_some_iff.mp h).1]) (c.records.filter fun r => filter.covers r.scope)
  -- to fit is to cover and to have no other names, so it selects from what covers
  have fits : (fun r : ScopeRecord => filter.fits r.scope && filter.covers r.scope) =
      fun r => filter.fits r.scope := by
    funext r
    rw [Filter.fits, Bool.and_assoc, Bool.and_self]
  rw [List.filterMap_eq_filter, List.filter_filter, fits] at select
  show (sortBy _ (c.records.filter fun r => filter.fits r.scope)).Sublist _
  rw [← select]
  exact List.filter_sublist

theorem mem_admitted_iff : r ∈ admitted c filter coverage ↔
    r ∈ c.records ∧ filter.admits coverage r.scope := by
  rw [admitted, (sortBy_perm _ _).mem_iff, List.mem_filter]

/-- No two of the records are of the same scope. -/
theorem distinct_admitted (lists : c.Lists l) (filter : Filter) (coverage : Coverage) :
    ((admitted c filter coverage).map ScopeRecord.scope).Pairwise fun a b => ¬ a.same b := by
  have nodup : ((admitted c filter coverage).map ScopeRecord.scope).Nodup :=
    ((sortBy_perm _ _).map _).nodup_iff.mpr (lists.distinct.sublist (List.filter_sublist.map _))
  refine List.Pairwise.imp_of_mem (fun ha hb ne same => ne ?_) nodup
  obtain ⟨r, hr, rfl⟩ := List.mem_map.mp ha
  obtain ⟨q, hq, rfl⟩ := List.mem_map.mp hb
  have hr := (mem_admitted_iff.mp hr).1
  have hq := (mem_admitted_iff.mp hq).1
  obtain ⟨wf, canonical⟩ := lists.wellFormed_scope hq
  -- records keep their scopes in canonical form, so the same scope is an equal one
  rw [(lists.same_iff wf hr).mp same, canonical]

end Store

/-! ## Listings

`Table.Listed` puts together what was shown of readings and of what a filter admits, in terms of the
records and entries in the table. -/

/-- The readings are those that a listing of a property over the scopes that a filter selects is to show. -/
structure Table.Listed (t : Table) (name : String) (filter : Filter) (coverage : Coverage)
    (xs : List Reading) : Prop where
  /-- There is a reading of each recorded scope that has an entry as of its active revision, and no other. -/
  mem : ∀ x, x ∈ xs ↔ ∃ i r n m e, t.HasRecord i r ∧ filter.Selects coverage r.scope ∧
    r.active = some n ∧ t.LastEntry name i n m e ∧ x = ⟨name, r.scope, some (hitOf r.scope e)⟩
  once : xs.Pairwise fun x y => ¬ x.query.same y.query
  ordered : xs.Pairwise fun x y => x.query.text ≤ y.query.text

namespace Table.Depicts

theorem hasRecord_iff_mem (sep : Scope.Separated U) (h : t.Depicts U l) (lists : c.Lists l) :
    t.HasRecord i r ↔ r ∈ c.records ∧ i = r.scope.id := by
  rw [h.hasRecord_iff sep, lists.mem]
  constructor
  · rintro ⟨s, p, -, rfl, hp, rfl⟩
    exact ⟨hp, (Scope.id_canonical s).symm⟩
  · rintro ⟨hr, rfl⟩
    obtain ⟨s, used, scope⟩ := h.pointers r.scope (by rw [hr]; exact Option.some_ne_none _)
    rw [← scope] at hr
    refine ⟨s, _, used, ?_, hr, ?_⟩
    · rw [← scope, Scope.id_canonical]
    · rw [scope]
      rfl

/-- **What the records that a filter admits show is what a listing is to show.** -/
theorem listed (sep : Scope.Separated U) (h : t.Depicts U l) (lists : c.Lists l)
    (accepted : Filter.ofParameters terms = .ok filter)
    (readings : readingsOf name t (admitted c filter coverage) = .ok xs) :
    t.Listed name filter coverage xs where
  mem x := by
    obtain ⟨named, rfl⟩ := Filter.ofParameters_eq_ok_iff.mp accepted
    have admits {r : ScopeRecord} (hr : r ∈ c.records) :
        filter.admits coverage r.scope ↔ filter.Selects coverage r.scope :=
      Filter.admits_iff_selects named (lists.wellFormed_scope hr).1
    simp only [mem_readingsOf_iff readings, mem_admitted_iff, h.hasRecord_iff_mem sep lists,
      activeEntry_eq_some_iff h]
    constructor
    · rintro ⟨r, ⟨hr, admitted⟩, e, ⟨n, m, active, last⟩, rfl⟩
      exact ⟨_, r, n, m, e, ⟨hr, rfl⟩, (admits hr).mp admitted, active, last, rfl⟩
    · rintro ⟨_, r, n, m, e, ⟨hr, rfl⟩, selects, active, last, rfl⟩
      exact ⟨r, ⟨hr, (admits hr).mpr selects⟩, e, ⟨n, m, active, last⟩, rfl⟩
  once := List.pairwise_map.mp ((distinct_admitted lists filter coverage).sublist (queries_sublist readings))
  ordered := by
    have ordered : (xs.map Reading.query).Pairwise fun a b => a.text ≤ b.text :=
      (sorted_admitted c filter coverage).sublist (queries_sublist readings)
    rwa [List.pairwise_map] at ordered

end Table.Depicts

namespace Store

variable {settings : Settings} {ids : Nat → BatchId} {params : List Parameter}

/-- A batch of one listing whose filter is accepted. -/
theorem execute_list_run (run : catalog.run t = (.ok c, t))
    (accepted : Filter.ofParameters terms = .ok filter) :
    (execute settings ids [.list ⟨name, terms, coverage⟩]).run t =
      ((readingsOf name t (admitted c filter coverage)).map fun xs => [.listed xs], t) := by
  rw [execute_list_eq, Session.run_bind_of_ok run, accepted]
  show ((readEach name (admitted c filter coverage)).bind _).run t = _
  rw [Session.run_bind, readEach_run]
  cases readingsOf name t (admitted c filter coverage) <;> rfl

/-- A read of a scope that is listed, if it is not ambiguous. -/
theorem readCurrent_of_mem (run : catalog.run t = (.ok c, t)) (lists : c.Lists l)
    (readings : readingsOf name t (admitted c filter coverage) = .ok xs) (hx : x ∈ xs)
    (hs : scopeOf params = .ok s) (same : s.same x.query) (passes : c.checkConflicts s = .ok ()) :
    (readCurrent settings ids .none name params).run t = (.ok [.value ⟨name, s, x.hit⟩], t) := by
  obtain ⟨r, hr, e, active, rfl⟩ := (mem_readingsOf_iff readings).mp hx
  have wf := wellFormed_of_scopeOf hs
  have hr := (mem_admitted_iff.mp hr).1
  have wr := (lists.wellFormed_scope hr).1
  rw [readCurrent_none_run run hs passes, foundIn_eq_activeEntry lists wf hr (wf.same_symm wr same), active]
  rfl

end Store

namespace System

variable {ι : Type} [DecidableEq ι]

/-- **A listing shows each scope that it is to show once, and no other, in the order of how scopes are
written.** What it shows of a scope is what a read of that scope finds which does not fall back and is not
ambiguous. The scopes that fit a filter exactly are listed in the order in which they stand among all that
the filter covers. -/
theorem list_shows_each_scope_once (sep : Scope.Separated U) (moves : List (Move ι))
    (within : ∀ h c, .call h c ∈ moves → c.Within U) (settings : Settings) (ids : Nat → BatchId)
    (name : String) (accepted : Filter.ofParameters terms = .ok filter) :
    ∃ listed : Coverage → Except StoreError (List Reading),
      (∀ coverage, (execute settings ids [.list ⟨name, terms, coverage⟩]).run (run moves).table =
        ((listed coverage).map fun xs => [.listed xs], (run moves).table)) ∧
      (∀ coverage e, listed coverage = .error e → e = .undecodable) ∧
      ((∀ h c, .call h c ∈ moves → c.Fits) → ∀ coverage, ∃ xs, listed coverage = .ok xs) ∧
      (∀ coverage xs, listed coverage = .ok xs → (run moves).table.Listed name filter coverage xs ∧
        ∀ x ∈ xs, ∀ params s, scopeOf params = .ok s → s.same x.query →
          (∀ q a b, (readCurrent settings ids .none name params).run (run moves).table ≠
            (.error (.ambiguousScope q a b), (run moves).table)) →
          (readCurrent settings ids .none name params).run (run moves).table =
            (.ok [.value ⟨name, s, x.hit⟩], (run moves).table)) ∧
      ∀ all, listed .covering = .ok all → ∃ exact, listed .exactly = .ok exact ∧ exact.Sublist all := by
  obtain ⟨replies, l, traced⟩ := run_traced sep moves within
  have depicts := traced.trace.depicts
  obtain ⟨c, catalog, lists⟩ := depicts.catalog_run sep
  refine ⟨fun coverage => readingsOf name (run moves).table (admitted c filter coverage),
    fun coverage => execute_list_run catalog accepted, fun coverage e => readingsOf_error,
    fun fits coverage => ?_, fun coverage xs readings => ⟨depicts.listed sep lists accepted readings, ?_⟩,
    fun all => readingsOf_sublist (admitted_exactly_sublist c filter)⟩
  · obtain ⟨xs, answers⟩ := depicts.readEach_answers (traced.trace.storable (run_each moves fits).2) name
      (admitted c filter coverage)
    rw [readEach_run] at answers
    exact ⟨xs, congrArg Prod.fst answers⟩
  · intro x hx params s hs same unambiguous
    exact readCurrent_of_mem catalog lists readings hx hs same
      (checkConflicts_of_unambiguous catalog hs unambiguous)

/-- After the later write its new scope is activated. -/
def revealed : List (Move Bool) :=
  published ++ shadow ++
    [.call true (.activate (.immediate 1) ⟨[⟨"env", .exactly "prod"⟩], none⟩), .serve true, .serve true,
      .serve true, .serve true]

/-- Then both scopes are listed, each as of the revision that is active in it, and the one without
parameters alone fits a filter that asks for none. -/
theorem revealed_listed :
    (run revealed).table.Listed "limit" ⟨[]⟩ .covering
      [⟨"limit", ⟨[("env", "prod")]⟩, some ⟨⟨[("env", "prod")]⟩, 1, .integer 3⟩⟩,
        ⟨"limit", .global, some ⟨.global, 1, .integer 1⟩⟩] ∧
    (execute {} (.stamped 2) [.list ⟨"limit", [], .exactly⟩]).run (run revealed).table =
      (.ok [.listed [⟨"limit", .global, some ⟨.global, 1, .integer 1⟩⟩]], (run revealed).table) := by
  obtain ⟨listed, runs, -, -, shows, -⟩ := list_shows_each_scope_once Scope.separated_sample revealed
    (forall_call_iff.mpr (by decide +kernel)) {} (.stamped 2) "limit" (show Filter.ofParameters [] = .ok ⟨[]⟩ from rfl)
  have found : (((execute {} (.stamped 2) [.list ⟨"limit", [], .covering⟩]).run (run revealed).table).1,
      ((execute {} (.stamped 2) [.list ⟨"limit", [], .exactly⟩]).run (run revealed).table).1) =
        (.ok [.listed [⟨"limit", ⟨[("env", "prod")]⟩, some ⟨⟨[("env", "prod")]⟩, 1, .integer 3⟩⟩,
          ⟨"limit", .global, some ⟨.global, 1, .integer 1⟩⟩]],
        .ok [.listed [⟨"limit", .global, some ⟨.global, 1, .integer 1⟩⟩]]) := by decide +kernel
  have answered {coverage : Coverage} {xs : List Reading}
      (found : ((listed coverage).map fun xs => [Outcome.listed xs]) = .ok [.listed xs]) :
      listed coverage = .ok xs := by
    cases result : listed coverage <;> rw [result] at found <;> cases found
    rfl
  rw [runs, runs, Prod.mk.injEq] at found
  obtain ⟨all, fits⟩ := found
  refine ⟨(shows .covering _ (answered all)).1, ?_⟩
  rw [runs]
  exact Prod.ext fits rfl

end System

end ScopedConfig
