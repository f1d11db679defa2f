import Mathlib.Data.List.Dedup
import ScopedConfig.Proofs.Snapshots
import ScopedConfig.Proofs.Undisturbed

/-!
# What one write does

A write that nobody gets in the way of fails only if its assignments cannot be placed
(`Store.exists_place_eq_error_iff`), and otherwise does what `Table.Writes` says: each scope takes its
next revision, each value stands at the revision of its scope, the epoch counts the scopes that are
new, and nothing else changes (`System.writes_take_next_revisions`). What is under a key afterwards is
known from the ledger after the write; how often it was put, from the keys of `Ledger.puts`.
-/

namespace ScopedConfig

open Layout Store

/-- The scopes that assignments name, each once and in canonical form. -/
def Store.named (as : List Assignment) : List Scope :=
  ((as.filterMap fun a => (scopeOf a.params).toOption).map Scope.canonical).dedup

namespace Table

/-- How many of the scopes that assignments name have no record. -/
def unrecorded (t : Table) (as : List Assignment) : Nat :=
  (named as).countP fun s => (t.get? (recordKey s.id)).isNone

/-- What a write makes of a table, and what it answers. -/
structure Writes (t : Table) (batch : BatchId) (as : List Assignment) (r : WriteReceipt)
    (t' : Table) : Prop where
  identity : r.batch = batch
  /-- The receipt has a place for each assignment, in their order. -/
  written : List.Forall₂ (fun a w => w.name = a.name ∧ ∃ s, scopeOf a.params = .ok s ∧
    w.scope.same s ∧ w.revision = t.working s.id + 1) as r.written
  /-- It finds the revision of an assignment by its parameters, in whatever order they come. -/
  revisionOf : ∀ a ∈ as, ∀ params, params.Perm a.params → ∃ s, scopeOf params = .ok s ∧
    r.revisionOf? a.name s = some (t.working s.id + 1)
  /-- Each scope has taken one revision, and has the active one that it had. -/
  record : ∀ a ∈ as, ∀ s, scopeOf a.params = .ok s →
    t'.record? s.id = some ⟨s.canonical, t.working s.id + 1, (t.record? s.id).bind ScopeRecord.active⟩ ∧
    t'.version? (recordKey s.id) = some ((t.version? (recordKey s.id)).getD 0 + 1)
  /-- Each value stands at the revision that its scope has taken. -/
  entry : ∀ a ∈ as, ∀ s, scopeOf a.params = .ok s →
    t'.get? (entryKey a.name s.id (t.working s.id + 1)) =
      some ⟨Entry.pack ⟨t.working s.id + 1, a.value, batch⟩, 1⟩ ∧
    (a.value.Fits → (entryAt a.name s (t.working s.id + 1)).run t' =
      (.ok (some ⟨t.working s.id + 1, a.value, batch⟩), t'))
  /-- The epoch has counted the scopes that are new. -/
  epoch : t'.get? epochKey = if t.unrecorded as = 0 then t.get? epochKey
    else some ⟨[], (t.version? epochKey).getD 0 + t.unrecorded as⟩
  /-- Nothing else has changed. -/
  rest : ∀ k, k ≠ epochKey → (∀ a ∈ as, ∀ s, scopeOf a.params = .ok s →
    k ≠ recordKey s.id ∧ k ≠ entryKey a.name s.id (t.working s.id + 1)) → t'.get? k = t.get? k

/-- As long as there are numbers left, the next revision has the next one. -/
theorem Roomy.toNat_working_add_one {t : Table} (h : t.Roomy) (i : ScopeId) :
    (t.working i + 1).toNat = (t.working i).toNat + 1 := by
  have few : (t.working i).toNat + 1 < 2 ^ 64 := by
    cases hr : t.record? i with
    | none =>
        rw [working, hr]
        decide
    | some r =>
        rw [working_eq hr]
        obtain ⟨stored, hs, unpack⟩ := record?_eq_some_iff.mp hr
        exact h i stored r hs unpack
  rw [UInt64.toNat_add]
  exact Nat.mod_eq_of_lt few

end Table

variable {U : Scope → Prop} {t t' : Table} {l : Ledger} {as : List Assignment}
  {placed : List Placed} {batch : BatchId} {policy : RetryPolicy} {ids : Nat → BatchId}
  {r : WriteReceipt}

/-! ## When it fails

Nothing but the placing of its assignments can stop an undisturbed write, and that looks at their
parameters and at properties set twice. -/

namespace Store

/-- **Why assignments cannot be placed.** -/
theorem exists_place_eq_error_iff : (∃ e, place as = .error e) ↔
    (∃ a ∈ as, ¬ Parameter.NamesScope a.params) ∨ ∃ a b, [a, b].Sublist as ∧ a.name = b.name ∧
      ∃ s r, scopeOf a.params = .ok s ∧ scopeOf b.params = .ok r ∧ s.same r := by
  have placeable : (∃ placed, place as = .ok placed) ↔
      (∀ a ∈ as, Parameter.NamesScope a.params) ∧ as.Pairwise Assignment.Apart := by
    simp only [place_eq_ok_iff_located, exists_and_right, exists_located_iff]
  -- assignments are placed, or it is refused to place them
  have failed : (∃ e, place as = .error e) ↔ ¬ ∃ placed, place as = .ok placed := by
    cases place as <;> simp
  rw [failed, placeable, not_and_or, List.pairwise_iff_forall_sublist]
  refine or_congr (by simp) ?_
  constructor
  · intro clash
    simp only [not_forall, Assignment.Apart, not_not] at clash
    obtain ⟨a, b, sub, s, r, hs, hr, name, same⟩ := clash
    exact ⟨a, b, sub, name, s, r, hs, hr, same⟩
  · rintro ⟨a, b, sub, name, s, r, hs, hr, same⟩ apart
    exact apart sub s r hs hr ⟨name, same⟩

theorem Located.named_perm (h : Located as placed) :
    (named as).Perm ((Scope.distinct (placed.map Placed.scope)).map Scope.canonical) := by
  have scopes : as.filterMap (fun a => (scopeOf a.params).toOption) = placed.map Placed.scope := by
    rw [← h.assignments, List.filterMap_map, ← List.filterMap_eq_map]
    apply List.filterMap_congr
    intro p hp
    show (scopeOf p.assignment.params).toOption = _
    rw [h.scopes p hp]
    rfl
  apply (List.perm_ext_iff_of_nodup (List.nodup_dedup _)
    (Scope.nodup_canonical_distinct h.wellFormed)).mpr
  intro c
  rw [List.mem_dedup, scopes, List.mem_map, Scope.mem_canonical_distinct h.wellFormed]

end Store

/-- The entry that is stored at exactly a revision. -/
theorem Store.entryAt_run {name : String} {s : Scope} {e : Entry} {version : Nat}
    (h : t.get? (entryKey name s.id e.revision) = some ⟨e.pack, version⟩) (fits : e.value.Fits) :
    (entryAt name s e.revision).run t = (.ok (some e), t) := by
  have get : (Session.get (entryKey name s.id e.revision)).run t = (.ok (some ⟨e.pack, version⟩), t) := by
    rw [← h]
    rfl
  rw [entryAt, Session.bind_eq, Session.run_bind_of_ok get]
  show ((Session.done (decodeEntry e.pack)).bind _).run t = _
  rw [decodeEntry, Entry.unpack?_pack fits]
  rfl

/-! ## How often it puts

The version of a key after the write is its version before it and the number of puts under it. So
the keys of `Ledger.puts` are counted: records once each, the epoch once for every scope that is
new. -/

namespace Ledger

theorem count_flatMap_advancePuts (l : Ledger) (cs : List Scope) (k : String) :
    ((cs.flatMap l.advancePuts).map Prod.fst).count k =
      cs.countP (fun c => recordKey c.id = k) +
        if epochKey = k then cs.countP fun c => (l.pointers c).isNone else 0 := by
  induction cs with
  | nil => simp
  | cons c cs ih =>
      rw [List.flatMap_cons, List.map_append, List.count_append, ih, advancePuts, List.map_cons,
        List.count_cons, List.countP_cons, List.countP_cons]
      cases l.pointers c <;> by_cases record : recordKey c.id = k <;>
        by_cases epoch : epochKey = k <;> simp [record, epoch] <;> omega

/-- The epoch is put once for each scope that is new. -/
theorem count_epochKey_puts (l : Ledger) (batch : BatchId) (placed : List Placed) :
    ((l.puts batch placed).map Prod.fst).count epochKey =
      ((Scope.distinct (placed.map Placed.scope)).map Scope.canonical).countP
        fun c => (l.pointers c).isNone := by
  have entries : ((placed.map (l.entryPut batch)).map Prod.fst).count epochKey = 0 := by
    rw [List.count_eq_zero, List.map_map, List.mem_map]
    rintro ⟨p, -, eq⟩
    exact entryKey_ne_epochKey _ _ _ eq
  rw [puts, List.map_append, List.count_append, entries, count_flatMap_advancePuts, if_pos rfl]
  simp [recordKey_ne_epochKey]

/-- The record of a scope is put once, however often the batch names it. -/
theorem count_recordKey_puts (sep : Scope.Separated U) (hp : Placeable U placed) {s : Scope}
    (mem : s ∈ placed.map Placed.scope) :
    ((l.puts batch placed).map Prod.fst).count (recordKey s.id) = 1 := by
  have entries : ((placed.map (l.entryPut batch)).map Prod.fst).count (recordKey s.id) = 0 := by
    rw [List.count_eq_zero, List.map_map, List.mem_map]
    rintro ⟨q, -, eq⟩
    exact recordKey_ne_entryKey _ _ _ _ eq.symm
  rw [puts, List.map_append, List.count_append, entries, count_flatMap_advancePuts,
    if_neg (recordKey_ne_epochKey _).symm, List.countP_map]
  show (Scope.distinct (placed.map Placed.scope)).countP
    (fun r => recordKey r.canonical.id = recordKey s.id) = 1
  simp only [Scope.id_canonical]
  -- the keys of these scopes differ, and this one is among them
  have key : recordKey s.id ∈
      (Scope.distinct (placed.map Placed.scope)).map fun s => recordKey s.id := by
    obtain ⟨r, hr, same⟩ := Scope.exists_mem_distinct (hp.wellFormed sep) mem
    have canonical := ((hp.wellFormed sep r (Scope.mem_distinct hr)).same_iff_canonical_eq
      (hp.wellFormed sep s mem)).mp same
    exact List.mem_map.mpr ⟨r, hr, by rw [Scope.id_eq_of_canonical_eq canonical]⟩
  rw [← List.count_eq_one_of_mem (hp.nodup_recordKey sep) key, List.count, List.countP_map]
  rfl

end Ledger

/-! ## What it leaves

The clauses of `Table.Writes`, one lemma for each of the records, the epoch and the entries. The
values come from the ledger after the write, the versions from the count above. -/

namespace Table.Depicts

theorem record?_eq_map (sep : Scope.Separated U) (h : t.Depicts U l) {s : Scope} (hs : U s) :
    t.record? s.id = (l.pointers s.canonical).map fun p => p.record s.canonical := by
  cases hp : l.pointers s.canonical with
  | some p => exact h.record?_eq sep hp
  | none => rw [record?, (h.get?_recordKey_eq_none_iff hs).mpr hp]; rfl

/-- The next revision, by the table. -/
theorem next_eq (sep : Scope.Separated U) (h : t.Depicts U l) {s : Scope} (hs : U s) :
    l.next s.canonical = t.working s.id + 1 := by
  rw [Ledger.next, working, h.record?_eq_map sep hs, Option.map_map]
  rfl

theorem getD_version?_epochKey (h : t.Depicts U l) :
    (t.version? epochKey).getD 0 = t.count recordPrefix := by
  rw [h.version?_epochKey]
  split
  · next none => exact none.symm
  · rfl

end Table.Depicts

/-- The receipt finds what it has for an assignment. -/
theorem WriteReceipt.revisionOf?_eq (writes : List.Forall₂ l.Writes as r.written) {a : Assignment}
    (ha : a ∈ as) {q s : Scope} (hs : scopeOf a.params = .ok s) (wf : q.WellFormed)
    (canonical : q.canonical = s.canonical) :
    r.revisionOf? a.name q = some (l.next s.canonical) := by
  obtain ⟨w, hw, name, wf', s', hs', spelt, -⟩ := exists_left_of_forall₂ writes.flip ha
  cases hs.symm.trans hs'
  have found : (r.written.find? fun w => w.name = a.name && w.scope.same q).isSome := by
    rw [List.find?_isSome]
    refine ⟨w, hw, ?_⟩
    rw [Bool.and_eq_true, decide_eq_true_eq, wf'.same_iff_canonical_eq wf, spelt, canonical]
    exact ⟨name, rfl⟩
  -- whichever place is found first, it is one in the same scope, and so at its next revision
  obtain ⟨v, hv⟩ := Option.isSome_iff_exists.mp found
  obtain ⟨b, -, -, wf'', r', -, spelt', revision⟩ :=
    exists_left_of_forall₂ writes (List.mem_of_find?_eq_some hv)
  have same := List.find?_some hv
  rw [Bool.and_eq_true, decide_eq_true_eq, wf''.same_iff_canonical_eq wf, spelt', canonical] at same
  rw [revisionOf?, hv, Option.map_some, revision, same.2]

/-- What a batch sets stands at the revision that it makes. -/
theorem Store.Placeable.entries_write (sep : Scope.Separated U) (hp : Placeable U placed)
    {p : Placed} (mem : p ∈ placed) :
    (l.write batch placed).entries p.assignment.name p.scope.canonical (l.next p.scope.canonical) =
      some (p.assignment.value, batch) := by
  obtain ⟨q, hq, name, canonical, entry⟩ : ∃ q ∈ placed, q.assignment.name = p.assignment.name ∧
      q.scope.canonical = p.scope.canonical ∧ (l.write batch placed).entries p.assignment.name
        p.scope.canonical (l.next p.scope.canonical) = some (q.assignment.value, batch) :=
    Ledger.exists_entries_write mem rfl
  rw [entry, hp.eq_of_same sep hq mem name canonical]

namespace Table.Depicts

/-- What is put for the scopes of a batch. -/
theorem record_of_stageBatch (sep : Scope.Separated U) (h : t.Depicts U l) (hp : Placeable U placed)
    (commits : t.Commits (l.staged t batch placed) t') {s : Scope} {a : Assignment}
    (mem : ⟨s, a⟩ ∈ placed) :
    t'.record? s.id =
        some ⟨s.canonical, t.working s.id + 1, (t.record? s.id).bind ScopeRecord.active⟩ ∧
      t'.version? (recordKey s.id) = some ((t.version? (recordKey s.id)).getD 0 + 1) := by
  have used : U s := hp.used _ mem
  have depicts := h.stageBatch sep hp commits
  have pointers : (l.write batch placed).pointers s.canonical =
      some ⟨l.next s.canonical, (l.pointers s.canonical).bind Pointers.active⟩ := by
    rw [Ledger.pointers_write, if_pos (List.any_eq_true.mpr ⟨_, mem, by simp⟩)]
  have named : s ∈ placed.map Placed.scope := List.mem_map_of_mem (f := Placed.scope) mem
  -- the record is put once, which moves its version on by one
  have version := version?_putAll t (l.puts batch placed) (recordKey s.id)
  rw [← h.filterMap_put?_staged sep hp, ← commits.eq_putAll, h.filterMap_put?_staged sep hp,
    Ledger.count_recordKey_puts sep hp named] at version
  constructor
  · rw [depicts.record?_eq sep pointers, ← h.next_eq sep used, h.record?_eq_map sep used,
      Option.bind_map]
    rfl
  · cases hv : t'.version? (recordKey s.id) with
    | none =>
        rw [hv, Option.getD_none] at version
        omega
    | some v =>
        rw [hv] at version
        exact congrArg some version

/-- How far a batch moves the epoch. -/
theorem epoch_of_stageBatch (sep : Scope.Separated U) (h : t.Depicts U l) (hp : Placeable U placed)
    (located : Located as placed) (commits : t.Commits (l.staged t batch placed) t') :
    t'.get? epochKey = if t.unrecorded as = 0 then t.get? epochKey
      else some ⟨[], (t.version? epochKey).getD 0 + t.unrecorded as⟩ := by
  have depicts := h.stageBatch sep hp commits
  -- scopes without a record in the table are those without pointers in the ledger
  have new : t.unrecorded as = ((Scope.distinct (placed.map Placed.scope)).map Scope.canonical).countP
      fun c => (l.pointers c).isNone := by
    rw [unrecorded, located.named_perm.countP_eq, List.countP_map, List.countP_map]
    apply List.countP_congr
    intro s hs
    show (t.get? (recordKey s.canonical.id)).isNone ↔ (l.pointers s.canonical).isNone
    rw [Scope.id_canonical, Option.isNone_iff_eq_none, Option.isNone_iff_eq_none,
      h.get?_recordKey_eq_none_iff (hp.used_distinct s hs)]
  have version := version?_putAll t (l.puts batch placed) epochKey
  rw [← h.filterMap_put?_staged sep hp, ← commits.eq_putAll, h.filterMap_put?_staged sep hp,
    Ledger.count_epochKey_puts, ← new] at version
  rw [depicts.epoch, ← depicts.getD_version?_epochKey, version, h.epoch, h.getD_version?_epochKey]
  by_cases none : t.unrecorded as = 0
  · rw [if_pos none, none, Nat.add_zero]
  · rw [if_neg none, if_neg (by omega)]

/-- What is put for the values of a batch. -/
theorem entry_of_stageBatch (sep : Scope.Separated U) (h : t.Depicts U l) (hp : Placeable U placed)
    (commits : t.Commits (l.staged t batch placed) t') {s : Scope} {a : Assignment}
    (mem : ⟨s, a⟩ ∈ placed) :
    t'.get? (entryKey a.name s.id (t.working s.id + 1)) =
      some ⟨Entry.pack ⟨t.working s.id + 1, a.value, batch⟩, 1⟩ := by
  have used : U s := hp.used _ mem
  have set : (l.write batch placed).entries a.name s.canonical (l.next s.canonical) =
      some (a.value, batch) := hp.entries_write sep mem
  rw [← h.next_eq sep used, (h.stageBatch sep hp commits).entry a.name s _ used, set]
  rfl

/-- **A write that goes through takes the next revision of its scopes, and changes nothing else.** -/
theorem writes_of_run (sep : Scope.Separated U) (h : t.Depicts U l)
    (within : (Call.write policy ids as).Within U) (run : (write policy ids as).run t = (.ok r, t')) :
    t.Writes (ids 0) as r t' := by
  have wrote := h.writes_of_write_run sep within run
  obtain ⟨placed, places, rfl, commits⟩ := (h.write_run_eq_ok_iff sep within).mp run
  have placeable := Call.placeable within places
  have located := (place_eq_ok_iff_located.mp places).1
  have mem {a : Assignment} (ha : a ∈ as) {s : Scope} (hs : scopeOf a.params = .ok s) :
      ⟨s, a⟩ ∈ placed := by
    rw [← located.assignments] at ha
    obtain ⟨p, hp, rfl⟩ := List.mem_map.mp ha
    cases hs.symm.trans (located.scopes p hp)
    exact hp
  refine ⟨rfl, ?_, fun a ha params perm => ?_, fun a ha s hs => ?_, fun a ha s hs => ?_,
    h.epoch_of_stageBatch sep placeable located commits, fun k not_epoch other => ?_⟩
  · apply ((List.forall₂_and_left _ _).mpr ⟨fun a ha => ha, wrote⟩).imp
    rintro a w ⟨ha, name, wf, s, hs, canonical, revision⟩
    refine ⟨name, s, hs, (wf.same_iff_canonical_eq (wellFormed_of_scopeOf hs)).mpr canonical, ?_⟩
    rw [revision, h.next_eq sep (within a ha s hs)]
  · obtain ⟨s, hs⟩ := exists_scopeOf_iff.mpr (exists_located_iff.mp ⟨placed, located⟩ a ha)
    obtain ⟨q, hq, same⟩ := Scope.exists_ofParameters_of_perm perm (scopeOf_eq_ok_iff.mp hs)
    have hq : scopeOf params = .ok q := scopeOf_eq_ok_iff.mpr hq
    have canonical := ((wellFormed_of_scopeOf hq).same_iff_canonical_eq (wellFormed_of_scopeOf hs)).mp same
    refine ⟨q, hq, ?_⟩
    rw [WriteReceipt.revisionOf?_eq wrote ha hs (wellFormed_of_scopeOf hq) canonical,
      h.next_eq sep (within a ha s hs), Scope.id_eq_of_canonical_eq canonical]
  · exact h.record_of_stageBatch sep placeable commits (mem ha hs)
  · have entry := h.entry_of_stageBatch sep placeable commits (mem ha hs)
    exact ⟨entry, fun fits => entryAt_run (e := ⟨_, a.value, ids 0⟩) entry fits⟩
  · apply commits.get?_eq
    rw [h.filterMap_put?_staged sep placeable, List.mem_map]
    rintro ⟨put, hput, rfl⟩
    -- the key is none of those that the clause excepts, one for each assignment
    have named {p : Placed} (hp : p ∈ placed) := other p.assignment
      (located.assignments ▸ List.mem_map_of_mem hp) p.scope (located.scopes p hp)
    rcases Ledger.of_mem_puts hput with ⟨s, hs, rfl⟩ | rfl | ⟨p, hp, rfl⟩
    · obtain ⟨p, hp, rfl⟩ := List.mem_map.mp hs
      exact (named hp).1 rfl
    · exact not_epoch rfl
    · apply (named hp).2
      rw [← h.next_eq sep (placeable.used p hp)]
      rfl

end Table.Depicts

/-! ## Schedules

On a table that a schedule leads to, the ledger is orderly, so nothing stands at the revisions that
the write takes and it goes through whenever its assignments can be placed. -/

namespace System

variable {ι : Type} [DecidableEq ι]

/-- **What one write does.** Undisturbed it fails just if some parameters name no scope or if the same
property is set twice in one scope, and then changes nothing. Otherwise every scope takes one
revision, the next one, with the values at it, and nothing else changes. -/
theorem writes_take_next_revisions (sep : Scope.Separated U) (moves : List (Move ι))
    (within : ∀ h c, .call h c ∈ moves → c.Within U)
    (roomy : ∀ k ∈ (run moves).log, k.before.Roomy) (policy : RetryPolicy) (ids : Nat → BatchId)
    (as : List Assignment) (used : ∀ a ∈ as, ∀ s, scopeOf a.params = .ok s → U s) :
    ((∃ e t', (write policy ids as).run (run moves).table = (.error e, t')) ↔
      (∃ a ∈ as, ¬ Parameter.NamesScope a.params) ∨ ∃ a b, [a, b].Sublist as ∧ a.name = b.name ∧
        ∃ s r, scopeOf a.params = .ok s ∧ scopeOf b.params = .ok r ∧ s.same r) ∧
    (∀ e t', (write policy ids as).run (run moves).table = (.error e, t') →
      t' = (run moves).table) ∧
    (∀ r t', (write policy ids as).run (run moves).table = (.ok r, t') →
      (run moves).table.Writes (ids 0) as r t') ∧
    ((run moves).table.Roomy → ∀ i,
      ((run moves).table.working i + 1).toNat = ((run moves).table.working i).toNat + 1) := by
  obtain ⟨replies, l, traced⟩ := run_traced sep moves within
  have depicts := traced.trace.depicts
  have orderly := traced.trace.orderly sep roomy
  rw [← exists_place_eq_error_iff]
  cases places : place as with
  | error e =>
      have run : (write policy ids as).run (run moves).table = (.error e, (run moves).table) := by
        rw [write, places]
        rfl
      refine ⟨⟨fun _ => ⟨e, rfl⟩, fun _ => ⟨e, _, run⟩⟩, fun e' t' failed => ?_, fun r t' ok => ?_,
        Table.Roomy.toNat_working_add_one⟩
      · cases run.symm.trans failed
        rfl
      · cases run.symm.trans ok
  | ok placed =>
      obtain ⟨t'', run, -⟩ := depicts.write_run sep orderly policy ids used places
      refine ⟨⟨?_, ?_⟩, fun e t' failed => ?_, fun r t' ok => ?_, Table.Roomy.toNat_working_add_one⟩
      · rintro ⟨e, t', failed⟩
        cases run.symm.trans failed
      · rintro ⟨e, failed⟩
        cases failed
      · cases run.symm.trans failed
      · exact depicts.writes_of_run sep used ok

/-- Two values for a scope that has revisions, and one for a new scope. -/
def news : List Assignment :=
  [⟨"limit", .integer 3, []⟩, ⟨"limit", .integer 4, [⟨"env", .exactly "prod"⟩]⟩,
    ⟨"burst", .unset, []⟩]

theorem news_within : ∀ a ∈ news, ∀ s, scopeOf a.params = .ok s → Scope.Sample s := by decide +kernel

theorem race_takes_news : ∃ r t',
    (write (.immediate 1) (.stamped 1) news).run (run race).table = (.ok r, t') ∧
    r.written = [⟨"limit", .global, 3⟩, ⟨"limit", ⟨[("env", "prod")]⟩, 1⟩, ⟨"burst", .global, 3⟩] ∧
    (run race).table.Writes (.stamped 1 0) news r t' ∧ (run race).table.unrecorded news = 1 := by
  have runs : (((write (.immediate 1) (.stamped 1) news).run (run race).table).1.map
      WriteReceipt.written, (run race).table.unrecorded news) =
        (.ok [⟨"limit", .global, 3⟩, ⟨"limit", ⟨[("env", "prod")]⟩, 1⟩, ⟨"burst", .global, 3⟩], 1) := by
    decide +kernel
  simp only [Prod.mk.injEq] at runs
  obtain ⟨written, unrecorded⟩ := runs
  obtain ⟨-, -, writes, -⟩ := writes_take_next_revisions Scope.separated_sample race race_within
    (run_roomy_of_length Scope.separated_sample race race_within (by decide)) (.immediate 1)
    (.stamped 1) news news_within
  cases done : (write (.immediate 1) (.stamped 1) news).run (run race).table with
  | mk result t' =>
      rw [done] at written
      cases result with
      | error e => cases written
      | ok r => exact ⟨r, t', rfl, Except.ok.inj written, writes r t' done, unrecorded⟩

end System

end ScopedConfig
