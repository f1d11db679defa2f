import ScopedConfig.Proofs.System

/-!
# Calls take effect one at a time

However the requests of any number of handles are interleaved, the table is in the end what comes of
the calls that committed, one after another in the order of their transactions, and each of them
answered what it answers there (`System.commits_linearize`). An activation that commits finds its
scope unambiguous at that moment, not just when it looked
(`System.activation_commits_unambiguous`).
-/

namespace ScopedConfig.System

open Layout Store

variable {ι : Type} [DecidableEq ι] {U : Scope → Prop}

/-- **No update is lost, made twice or torn.** -/
theorem commits_linearize (sep : Scope.Separated U) (moves : List (Move ι))
    (within : ∀ h c, .call h c ∈ moves → c.Within U) :
    ∃ replies l,
      Ledger.empty.Runs ((run moves).log.map Commit.call) replies l ∧
      (run moves).table.Depicts U l ∧
      (run moves).Attributed ∧
      ∀ h, ∀ p ∈ (run moves).calls h, p.Settled (run moves).log replies := by
  obtain ⟨replies, l, traced⟩ := run_traced sep moves within
  exact ⟨replies, l, traced.trace.runs, traced.trace.depicts, traced.attributed,
    fun h p hp => (traced.sound h p hp).2.1⟩

/-- Two handles write to the global scope. Both have loaded its record before either commits, so the
second one conflicts and has to load it again. -/
def race : List (Move Bool) :=
  let write (n : Int64) : Call :=
    .write (.immediate 2) (fun k => .stamped 0 k) [⟨"limit", .integer n, []⟩]
  [.call true (write 1), .call false (write 2), .serve true, .serve false, .serve true,
    .serve false, .serve false, .serve false]

theorem race_within : ∀ h c, .call h c ∈ race → c.Within Scope.Sample :=
  forall_call_iff.mpr (by decide +kernel)

theorem race_linearizes :
    ∃ replies l,
      Ledger.empty.Runs ((run race).log.map Commit.call) replies l ∧
      (run race).table.Depicts Scope.Sample l ∧
      (run race).Attributed ∧
      ∀ h, ∀ p ∈ (run race).calls h, p.Settled (run race).log replies :=
  commits_linearize Scope.separated_sample race race_within

/-- **An activation never slips past a conflicting scope.** -/
theorem activation_commits_unambiguous (sep : Scope.Separated U) (moves : List (Move ι))
    (within : ∀ h c, .call h c ∈ moves → c.Within U) {k : Commit} (hk : k ∈ (run moves).log)
    {a : Activation} (activation : k.call.activation? = some a) :
    ∃ s records r n version,
      scopeOf a.params = .ok s ∧
      Store.records.run k.before = (.ok records, k.before) ∧
      (∀ p ∈ records, ∀ q ∈ records, p.scope.within s → q.scope.within s →
        p.scope.within q.scope ∨ q.scope.within p.scope) ∧
      r ∈ records ∧ r.scope.same s ∧
      n = a.revision.getD r.working ∧ 1 ≤ n ∧ n ≤ r.working ∧
      k.before.get? (recordKey s.id) = some ⟨r.pack, version⟩ ∧
      ∀ key, k.after.get? key =
        if key = recordKey s.id then
          some ⟨{ r with active := some n : ScopeRecord }.pack, version + 1⟩
        else k.before.get? key := by
  obtain ⟨replies, l, traced⟩ := run_traced sep moves within
  obtain ⟨l, reply, l', depicts, hwithin, does, -, -⟩ := traced.trace.of_mem hk
  obtain ⟨call, before, after⟩ := k
  cases call with
  | write | advance | setActive => cases activation
  | activate policy a' =>
      obtain rfl : a' = a := Option.some.inj activation
      cases reply with
      | written | advanced | set => cases does
      | activated reply =>
          -- undisturbed on the table before the commit, the attempt looked at just that table
          obtain ⟨s, hs, run⟩ := does
          have used := hwithin s hs
          obtain ⟨p, n, activates, -, activated⟩ :=
            (depicts.attemptActivate_run_eq_ok_iff sep used).mp run
          obtain ⟨c, catalog, lists⟩ := depicts.catalog_run sep
          obtain ⟨records, records_run, rfl⟩ := Session.run_map_eq_ok.mp catalog
          have record := depicts.record s used
          rw [activates.recorded, Option.map_some, Option.map_eq_some_iff] at record
          obtain ⟨⟨bytes, version⟩, stored, rfl⟩ := record
          refine ⟨s, records, p.record s.canonical, n, version, hs, records_run, ?_,
            (lists.mem _).mpr activates.recorded, (sep.wellFormed s used).same_canonical,
            activates.revision, Revision.one_le_iff.mpr activates.positive, activates.written,
            stored, fun key => ?_⟩
          · exact fun p hp q hq => activates.unambiguous p.scope q.scope
              (lists.pointers_ne_none_iff.mpr ⟨p, hp, rfl⟩)
              (lists.pointers_ne_none_iff.mpr ⟨q, hq, rfl⟩)
          · rw [activated, Table.Depicts.activated, Table.get?_put, Table.version?, stored]
            rfl

/-- One handle records a scope while the other activates another one. The epoch has moved when the
activation comes to commit, so it has to look again. -/
def overtaken : List (Move Bool) :=
  let write (params : List Parameter) : Call :=
    .write (.immediate 2) (fun k => .stamped 0 k) [⟨"limit", .integer 1, params⟩]
  [.call true (write []), .serve true, .serve true,
    .call false (.activate (.immediate 2) ⟨[], none⟩), .serve false, .serve false, .serve false,
    .call true (write [⟨"env", .exactly "prod"⟩]), .serve true, .serve true,
    .serve false, .serve false, .serve false, .serve false, .serve false]

theorem overtaken_commits_unambiguous :
    ∃ k ∈ (run overtaken).log, k.call.activation? = some ⟨[], none⟩ ∧
    ∃ s records r n version,
      scopeOf [] = .ok s ∧
      Store.records.run k.before = (.ok records, k.before) ∧
      (∀ p ∈ records, ∀ q ∈ records, p.scope.within s → q.scope.within s →
        p.scope.within q.scope ∨ q.scope.within p.scope) ∧
      r ∈ records ∧ r.scope.same s ∧
      n = r.working ∧ 1 ≤ n ∧ n ≤ r.working ∧
      k.before.get? (recordKey s.id) = some ⟨r.pack, version⟩ ∧
      ∀ key, k.after.get? key =
        if key = recordKey s.id then
          some ⟨{ r with active := some n : ScopeRecord }.pack, version + 1⟩
        else k.before.get? key := by
  have third : ((run overtaken).log[2]?.bind fun k => k.call.activation?) = some ⟨[], none⟩ := by
    decide +kernel
  obtain ⟨k, hk, activation⟩ := Option.bind_eq_some_iff.mp third
  have hk := List.mem_of_getElem? hk
  exact ⟨k, hk, activation, activation_commits_unambiguous Scope.separated_sample overtaken
    (forall_call_iff.mpr (by decide +kernel)) hk activation⟩

end ScopedConfig.System
