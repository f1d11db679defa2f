import ScopedConfig.Proofs.Fallbacks
import ScopedConfig.Proofs.Undisturbed
import ScopedConfig.Proofs.Writes

/-!
# Activating a revision publishes it

A read of what is active finds the record of its scope among all records and takes the revision from
it; a read at a revision loads the record of its scope, to see whether there is such a revision. On a
table that depicts a ledger the one at the active revision finds what the other one finds
(`Table.Depicts.readCurrent_eq_readPinned`).

An activation changes the active revision of one record and nothing else. Reads at a revision do not
look at it (`Table.Depicts.readAt_activated`), and reads of what is active look at that of their own
scope only (`Table.Depicts.readCurrent_activated`). So an activation makes the reads of its scope those
at its revision, from before it, and is not seen by any others (`System.activation_publishes_revision`).
-/

namespace ScopedConfig

open Layout Store

variable {U : Scope → Prop} {t t' : Table} {l l' : Ledger} {c c' : Catalog} {s q : Scope}
  {p : Pointers} {n : Revision} {params : List Parameter} {name : String} {settings : Settings}
  {ids : Nat → BatchId}

/-! ## Reads at a revision

A batch of one such read needs no catalog: it takes the record of the scope from the table, so it is
followed through `readAt` alone. -/

namespace Store

/-- A batch of one read at a revision. -/
def readPinned (settings : Settings) (ids : Nat → BatchId) (name : String) (params : List Parameter)
    (n : Revision) : Session (List Outcome) :=
  execute settings ids [.read ⟨name, params, some n⟩]

theorem readPinned_eq (settings : Settings) (ids : Nat → BatchId) (name : String)
    (params : List Parameter) (n : Revision) :
    readPinned settings ids name params n = (Session.done (scopeOf params)).bind fun s =>
      (readAt name s n).bind fun reading => .done (.ok [.value reading]) := by
  cases hs : scopeOf params with
  | ok s => exact execute_read_eq settings ids hs rfl
  -- Parameters that name no scope are refused in the check ahead, and without it likewise.
  | error e =>
      have refused : check ⟨[]⟩ (.read ⟨name, params, some n⟩) = .error e := by
        rw [check, hs]
        rfl
      rw [readPinned, execute_eq_of_reads settings ids (by simp [Operation.isRead])]
      show (Session.done (preflight ⟨[]⟩ _)).bind _ = _
      rw [preflight_of_isRead _ rfl, refused]
      rfl

end Store

theorem Table.Depicts.recordOf_run (sep : Scope.Separated U) (h : t.Depicts U l) (s : Scope) :
    (recordOf s).run t = (.ok (t.record? s.id), t) := by
  apply Store.recordOf_run
  intro stored hs
  obtain ⟨r, p, used, -, -, pack⟩ := h.exists_of_recordKey hs
  exact ⟨_, pack ▸ ScopeRecord.unpack?_pack (sep.small r used).canonical⟩

theorem Table.Depicts.readPinned_run (sep : Scope.Separated U) (h : t.Depicts U l)
    (hs : scopeOf params = .ok s) (n : Revision) :
    (readPinned settings ids name params n).run t =
      (((readAt name s n).run t).1.map fun reading => [.value reading], t) := by
  obtain ⟨result, read⟩ : ∃ result, (readAt name s n).run t = (result, t) :=
    ⟨_, Store.readAt_run (h.recordOf_run sep s)⟩
  rw [readPinned_eq, hs]
  show ((readAt name s n).bind _).run t = _
  rw [Session.run_bind, read]
  cases result <;> rfl

/-! ## The record of a scope

The catalog has the record of a scope in whatever spelling it is asked for, and the table has it
under the identity of the scope. On a table that depicts a ledger these are one record, and the two
kinds of reads meet in it. -/

theorem Catalog.Lists.find?_eq_some_iff (h : c.Lists l) (hs : s.WellFormed) {r : ScopeRecord} :
    c.find? s = some r ↔ r ∈ c.records ∧ r.scope.same s := by
  constructor
  · intro find
    have same := List.find?_some find
    exact ⟨List.mem_of_find?_eq_some find, same⟩
  · rintro ⟨hr, same⟩
    have scope := (h.same_iff hs hr).mp same
    rw [h.find?_eq hs, ← scope, (h.mem r).mp hr]
    rfl

namespace Table.Depicts

/-- **The record in the catalog is the one in the table.** -/
theorem find?_eq_record? (sep : Scope.Separated U) (h : t.Depicts U l) (lists : c.Lists l)
    (hs : U s) : c.find? s = t.record? s.id := by
  rw [lists.find?_eq (sep.wellFormed s hs), h.record?_eq_map sep hs]

/-- **What is active is what there is at the active revision.** -/
theorem readCurrent_eq_readPinned (sep : Scope.Separated U) (h : t.Depicts U l) (orderly : l.Orderly)
    (run : catalog.run t = (.ok c, t)) (lists : c.Lists l) (hs : scopeOf params = .ok s)
    (passes : c.checkConflicts s = .ok ()) (active : (c.find? s).bind ScopeRecord.active = some n) :
    (readCurrent settings ids .none name params).run t =
      (readPinned settings ids name params n).run t := by
  obtain ⟨r, find, active⟩ := Option.bind_eq_some_iff.mp active
  have listed := (lists.find?_eq (wellFormed_of_scopeOf hs)).symm.trans find
  obtain ⟨p, hp, rfl⟩ := Option.map_eq_some_iff.mp listed
  -- the active revision is one that a read at a revision does not refuse
  have written : (p.record s.canonical).hasRevision n :=
    ScopeRecord.hasRevision_iff.mpr (orderly.active _ p n hp active)
  rw [readCurrent_none_run run hs passes, foundIn_of_active find active, h.readPinned_run sep hs,
    Store.readAt_run (h.recordOf_run sep s), h.record?_eq sep hp, if_pos (by simpa using written)]
  cases entryOf _ _ <;> rfl

end Table.Depicts

theorem Store.readCurrent_of_inactive (run : catalog.run t = (.ok c, t)) (hs : scopeOf params = .ok s)
    (passes : c.checkConflicts s = .ok ()) (inactive : (c.find? s).bind ScopeRecord.active = none) :
    (readCurrent settings ids .none name params).run t = (.ok [.value ⟨name, s, none⟩], t) := by
  rw [readCurrent_none_run run hs passes, foundIn_of_inactive inactive]
  rfl

/-! ## What an activation leaves alone

The table after an activation differs from the one before it in the value under one key. Conflicts
go by the scopes of a catalog, which stay the same; look-ups go by rows of entries, which stay the
same too. Reads in other scopes come to the same because of that, and reads at a revision as well.
-/

theorem Catalog.checkConflicts_congr
    (scopes : c'.records.map ScopeRecord.scope = c.records.map ScopeRecord.scope) (q : Scope) :
    c'.checkConflicts q = c.checkConflicts q := by
  rw [checkConflicts, checkConflicts, covered, covered, scopes]

/-- A search finds the same where the record of its scope and the rows of the property are the same.
-/
theorem Store.foundIn_congr (find : c'.find? s = c.find? s)
    (floor : ∀ n, t'.floor (entryPrefix name s.id) (entryKey name s.id n) =
      t.floor (entryPrefix name s.id) (entryKey name s.id n)) :
    foundIn c' name t' s = foundIn c name t s := by
  cases shown : (c.find? s).bind ScopeRecord.active with
  | none => rw [foundIn_of_inactive shown, foundIn_of_inactive (find ▸ shown)]
  | some n =>
      obtain ⟨r, found, active⟩ := Option.bind_eq_some_iff.mp shown
      rw [foundIn_of_active found active, foundIn_of_active (find.trans found) active, floor]

/-- Reads of what is active, where the check and the search come to the same. -/
theorem Store.readCurrent_matches (run : catalog.run t = (.ok c, t))
    (run' : catalog.run t' = (.ok c', t')) (checks : ∀ q, c'.checkConflicts q = c.checkConflicts q)
    (found : ∀ s, scopeOf params = .ok s → foundIn c' name t' s = foundIn c name t s) :
    (readCurrent settings ids .none name params).Matches t
      (readCurrent settings ids .none name params) t' := by
  cases hs : scopeOf params with
  | error e =>
      rw [readCurrent, execute_current_eq, hs]
      exact .bind_of_ok run run' (.done _)
  | ok s =>
      cases passes : c.checkConflicts s with
      | error e =>
          rw [readCurrent, execute_current_eq, hs]
          apply Session.Matches.bind_of_ok run run'
          show ((Session.done (c.checkConflicts s)).bind _).Matches t
            ((Session.done (c'.checkConflicts s)).bind _) t'
          rw [checks, passes]
          exact .done _
      | ok u =>
          refine ⟨_, readCurrent_none_run run hs passes, ?_⟩
          rw [readCurrent_none_run run' hs ((checks s).trans passes), found s hs]

namespace Table.Depicts

/-- An activation touches no entry. -/
theorem floor_activated (t : Table) (s : Scope) (p : Pointers) (n : Revision) (name : String)
    (i : ScopeId) (m : Revision) :
    (activated t s p n).floor (entryPrefix name i) (entryKey name i m) =
      t.floor (entryPrefix name i) (entryKey name i m) := by
  apply floor_eq_of_get?_eq
  intro k start _
  apply get?_put_of_ne
  rintro rfl
  rw [not_startsWith_entryPrefix_recordKey] at start
  cases start

/-- The catalogs of tables with the same scopes have them in the same order. -/
theorem map_scope_catalog (sep : Scope.Separated U) (h : t.Depicts U l) (h' : t'.Depicts U l')
    (recorded : ∀ s, l.pointers s ≠ none ↔ l'.pointers s ≠ none)
    (run : catalog.run t = (.ok c, t)) (run' : catalog.run t' = (.ok c', t')) (lists : c.Lists l)
    (lists' : c'.Lists l') :
    c'.records.map ScopeRecord.scope = c.records.map ScopeRecord.scope := by
  have sorted {t : Table} {l : Ledger} {c : Catalog} (h : t.Depicts U l)
      (run : catalog.run t = (.ok c, t)) :
      (c.records.map ScopeRecord.scope).Pairwise fun s q => recordKey s.id < recordKey q.id :=
    List.pairwise_map.mpr (h.sorted_catalog sep run)
  apply eq_of_mem_iff_of_keys (sorted h' run') (sorted h run)
  intro s
  rw [List.mem_map, List.mem_map, ← lists.pointers_ne_none_iff, recorded, lists'.pointers_ne_none_iff]

variable (sep : Scope.Separated U) (h : t.Depicts U l) (hs : U s) (hp : l.pointers s.canonical = some p)
  (n : Revision)

include sep h hs hp

/-- The catalog after an activation has the same conflicts. -/
theorem catalog_activated (run : catalog.run t = (.ok c, t)) (lists : c.Lists l) :
    ∃ c', catalog.run (activated t s p n) = (.ok c', activated t s p n) ∧
      c'.Lists (l.activate s.canonical n) ∧ ∀ q, c'.checkConflicts q = c.checkConflicts q := by
  have later := h.depicts_activated sep hs hp n
  obtain ⟨c', run', lists'⟩ := later.catalog_run sep
  refine ⟨c', run', lists', Catalog.checkConflicts_congr ?_⟩
  exact h.map_scope_catalog sep later (Ledger.Alike.activate hp n).pointers_ne_none_iff run run' lists
    lists'

/-- **Reads at a revision do not see an activation.** -/
theorem readAt_activated (name : String) (q : Scope) (m : Revision) :
    (readAt name q m).Matches t (readAt name q m) (activated t s p n) := by
  have later := h.depicts_activated sep hs hp n
  have hp' : (l.activate s.canonical n).pointers s.canonical = some ⟨p.working, some n⟩ := by
    rw [Ledger.activate_eq hp, Ledger.pointers_set, if_pos rfl]
  refine ⟨_, Store.readAt_run (h.recordOf_run sep q), ?_⟩
  rw [Store.readAt_run (later.recordOf_run sep q), floor_activated]
  by_cases same : q.id = s.id
  · -- scope and working revision stay what they are
    rw [same, h.record?_eq sep hp, later.record?_eq sep hp']
    rfl
  · have kept : (activated t s p n).record? q.id = t.record? q.id := by
      rw [record?, record?, activated, get?_put_of_ne (mt recordKey_inj.mp same)]
    rw [kept]

theorem readPinned_activated (name : String) (params : List Parameter) (m : Revision) :
    (readPinned settings ids name params m).Matches t
      (readPinned settings ids name params m) (activated t s p n) := by
  rw [readPinned_eq]
  cases scopeOf params with
  | error e => exact .done _
  | ok q => exact (h.readAt_activated sep hs hp n name q m).bind fun reading => .done _

/-- **Reads of what is active in other scopes do not see an activation.** -/
theorem readCurrent_activated (name : String) {params : List Parameter}
    (other : ∀ q, scopeOf params = .ok q → ¬ q.same s) :
    (readCurrent settings ids .none name params).Matches t
      (readCurrent settings ids .none name params) (activated t s p n) := by
  obtain ⟨c, run, lists⟩ := h.catalog_run sep
  obtain ⟨c', run', lists', checks⟩ := h.catalog_activated sep hs hp n run lists
  apply readCurrent_matches run run' checks
  intro q hq
  apply foundIn_congr _ fun m => floor_activated t s p n name q.id m
  have wf := wellFormed_of_scopeOf hq
  have apart : q.canonical ≠ s.canonical :=
    mt (wf.same_iff_canonical_eq (sep.wellFormed s hs)).mpr (other q hq)
  rw [lists.find?_eq wf, lists'.find?_eq wf, Ledger.activate_eq hp, Ledger.pointers_set, if_neg apart]

/-- **A read of what is active in the scope finds what there was at the revision.** -/
theorem readPinned_matches_readCurrent (orderly : l.Orderly) (positive : n ≠ 0)
    (written : n ≤ p.working) (unambiguous : l.Unambiguous s) (name : String)
    {params : List Parameter} (hq : scopeOf params = .ok q) (same : q.same s) :
    (readPinned settings ids name params n).Matches t
      (readCurrent settings ids .none name params) (activated t s p n) := by
  obtain ⟨c, run, lists⟩ := h.catalog_run sep
  obtain ⟨c', run', lists', checks⟩ := h.catalog_activated sep hs hp n run lists
  have wf := wellFormed_of_scopeOf hq
  have canonical := (wf.same_iff_canonical_eq (sep.wellFormed s hs)).mp same
  -- the scope was activated, so it has no conflicts, nor has any spelling of it
  have passes : c'.checkConflicts q = .ok () := by
    rw [checks, lists.checkConflicts_eq_ok_iff]
    exact unambiguous.of_within (fun a ha => (lists.wellFormed a ha).1) wf (sep.wellFormed s hs)
      (Bool.and_eq_true_iff.mp same).2
  have active : (c'.find? q).bind ScopeRecord.active = some n := by
    rw [lists'.find?_eq wf, canonical, Ledger.activate_eq hp, Ledger.pointers_set, if_pos rfl]
    rfl
  obtain ⟨result, before, after⟩ : (readPinned settings ids name params n).Matches t _ _ :=
    h.readPinned_activated sep hs hp n name params n
  refine ⟨result, before, ?_⟩
  -- What is active now is read like the revision, and the revision was read so before.
  rw [(h.depicts_activated sep hs hp n).readCurrent_eq_readPinned sep
    (orderly.activate hp positive written) run' lists' hq passes active]
  exact after

end Table.Depicts

/-! ## Schedules

What was shown of tables that depict a ledger, said of those that schedules lead to. A scope that
the schedule has not used may be asked for as well; it has no record. -/

namespace System

variable {ι : Type} [DecidableEq ι]

/-- **Activating a revision publishes it.** A read of what is active finds what a read at the active
revision of its very scope finds, and nothing if nothing is active there. When a revision is activated,
these reads come to what those at the revision came to before, and no read of another scope and no read
at a revision comes to anything else than before. -/
theorem activation_publishes_revision (sep : Scope.Separated U) (moves : List (Move ι))
    (within : ∀ h c, .call h c ∈ moves → c.Within U) (roomy : ∀ k ∈ (run moves).log, k.before.Roomy)
    (settings : Settings) (ids : Nat → BatchId) :
    (∃ records, Store.records.run (run moves).table = (.ok records, (run moves).table) ∧
      ∀ name params s, scopeOf params = .ok s →
        (∀ q a b, (readCurrent settings ids .none name params).run (run moves).table ≠
          (.error (.ambiguousScope q a b), (run moves).table)) →
        ∃ record : Option ScopeRecord, (∀ r, record = some r ↔ r ∈ records ∧ r.scope.same s) ∧
          (U s → (metadata params).run (run moves).table = (.ok record, (run moves).table)) ∧
          (∀ n, record.bind ScopeRecord.active = some n →
            (readCurrent settings ids .none name params).run (run moves).table =
              (readPinned settings ids name params n).run (run moves).table) ∧
          (record.bind ScopeRecord.active = none →
            (readCurrent settings ids .none name params).run (run moves).table =
              (.ok [.value ⟨name, s, none⟩], (run moves).table))) ∧
    ∀ policy a r t', (Call.activate policy a).Within U →
      (activate policy a).run (run moves).table = (.ok r, t') →
      ∃ s record, scopeOf a.params = .ok s ∧
        (metadata a.params).run (run moves).table = (.ok (some record), (run moves).table) ∧
        r.revision = a.revision.getD record.working ∧
        (∀ name params q, scopeOf params = .ok q → q.same s →
          (readPinned settings ids name params r.revision).Matches (run moves).table
            (readCurrent settings ids .none name params) t') ∧
        (∀ name params, (∀ q, scopeOf params = .ok q → ¬ q.same s) →
          (readCurrent settings ids .none name params).Matches (run moves).table
            (readCurrent settings ids .none name params) t') ∧
        ∀ name params n, (readPinned settings ids name params n).Matches (run moves).table
          (readPinned settings ids name params n) t' := by
  obtain ⟨replies, l, traced⟩ := run_traced sep moves within
  have depicts := traced.trace.depicts
  have orderly := traced.trace.orderly sep roomy
  have metadata_run {params : List Parameter} {s : Scope} (hs : scopeOf params = .ok s) :
      (metadata params).run (run moves).table =
        (.ok ((run moves).table.record? s.id), (run moves).table) := by
    rw [metadata, hs]
    exact depicts.recordOf_run sep s
  constructor
  · obtain ⟨c, run, lists⟩ := depicts.catalog_run sep
    obtain ⟨records, t', scanned, done⟩ := Session.run_bind_eq_ok.mp run
    cases done
    refine ⟨records, scanned, fun name params s hs unambiguous => ?_⟩
    have passes := checkConflicts_of_unambiguous run hs unambiguous
    refine ⟨Catalog.find? ⟨records⟩ s, fun r => lists.find?_eq_some_iff (wellFormed_of_scopeOf hs),
      fun used => ?_, fun n active => ?_, fun inactive => ?_⟩
    · rw [metadata_run hs, depicts.find?_eq_record? sep lists used]
    · exact depicts.readCurrent_eq_readPinned sep orderly run lists hs passes active
    · exact readCurrent_of_inactive run hs passes inactive
  · intro policy a r t' used goes
    obtain ⟨s, p, n, hs, activates, rfl, rfl⟩ := (depicts.activate_run_eq_ok_iff sep used).mp goes
    have recorded := activates.recorded
    refine ⟨s, p.record s.canonical, hs, ?_, activates.revision, fun name params q hq same => ?_,
      fun name params other => ?_, fun name params m => ?_⟩
    · rw [metadata_run hs, depicts.record?_eq sep recorded]
    · exact depicts.readPinned_matches_readCurrent sep (used s hs) recorded n orderly
        activates.positive activates.written activates.unambiguous name hq same
    · exact depicts.readCurrent_activated sep (used s hs) recorded n name other
    · exact depicts.readPinned_activated sep (used s hs) recorded n name params m

/-- An older revision is active again, and what was written since comes back with another activation. -/
theorem rollback_publishes :
    (readCurrent {} (.stamped 2) .none "limit" []).run (run (race ++ rollback)).table =
        (readPinned {} (.stamped 2) "limit" [] 1).run (run (race ++ rollback)).table ∧
      ∃ r t', (activate (.immediate 1) ⟨[], none⟩).run (run (race ++ rollback)).table = (.ok r, t') ∧
        r.revision = 3 ∧
        (readPinned {} (.stamped 2) "limit" [] 3).Matches (run (race ++ rollback)).table
          (readCurrent {} (.stamped 2) .none "limit" []) t' ∧
        (readPinned {} (.stamped 2) "limit" [] 1).Matches (run (race ++ rollback)).table
          (readPinned {} (.stamped 2) "limit" [] 1) t' := by
  have runs : (((readCurrent {} (.stamped 2) .none "limit" []).run (run (race ++ rollback)).table).1,
      ((metadata []).run (run (race ++ rollback)).table).1,
      ((activate (.immediate 1) ⟨[], none⟩).run (run (race ++ rollback)).table).1) =
        (.ok [.value ⟨"limit", .global, some ⟨.global, 1, .integer 1⟩⟩], .ok (some ⟨.global, 3, some 1⟩),
          .ok ⟨.global, 3, some 1⟩) := by decide +kernel
  simp only [Prod.mk.injEq] at runs
  obtain ⟨current, recorded, activated⟩ := runs
  obtain ⟨⟨records, -, active⟩, publishes⟩ :=
    activation_publishes_revision Scope.separated_sample (race ++ rollback)
      (fun h c hc => (rollback_within h c hc).1) rollback_roomy {} (.stamped 2)
  have global : scopeOf [] = .ok Scope.global := rfl
  constructor
  · obtain ⟨record, -, tells, shown, -⟩ := active "limit" [] Scope.global global fun q a b ambiguous => by
      rw [ambiguous] at current
      cases current
    rw [tells (.inl rfl)] at recorded
    cases recorded
    exact shown 1 rfl
  · cases goes : (activate (.immediate 1) ⟨[], none⟩).run (run (race ++ rollback)).table with
    | mk result t' =>
        rw [goes] at activated
        obtain rfl : result = .ok ⟨.global, 3, some 1⟩ := activated
        obtain ⟨s, -, named, -, -, published, -, frozen⟩ :=
          publishes (.immediate 1) ⟨[], none⟩ _ t' (fun s hs => by cases hs; exact .inl rfl) goes
        obtain rfl : Scope.global = s := Except.ok.inj named
        exact ⟨_, t', rfl, rfl, published "limit" [] Scope.global global rfl, frozen "limit" [] 1⟩

end System

end ScopedConfig
