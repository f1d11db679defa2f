import ScopedConfig.Proofs.Execution
import ScopedConfig.Proofs.Permanence

/-!
# Histories only grow

What is read at a revision that has been written is read there for ever, whether there is a value or
not, and the history of a property is never anything but continued
(`System.written_revisions_frozen`). A read at a revision is a floor look-up among the entries up to it,
and these are the same in every table that keeps what is written (`Keeps.floor_eq`); a history is all
entries, and those that have come are behind those that were there (`Keeps.scan_eq_append`).
-/

namespace ScopedConfig

open Layout Store

namespace Table

variable {t t' : Table} {name : String} {i : ScopeId} {n : Revision}

/-! ## Records

What is stored under a key is read through its decoder: there is a record under an identity, or
there is none, and the highest revision written goes by the record. -/

/-- The record under an identity. -/
def record? (t : Table) (i : ScopeId) : Option ScopeRecord :=
  (t.get? (recordKey i)).bind fun stored => ScopeRecord.unpack? stored.value

/-- The highest revision written under an identity, zero if there is none. -/
def working (t : Table) (i : ScopeId) : Revision := ((t.record? i).map ScopeRecord.working).getD 0

/-- The two ways to say which record there is. -/
theorem record?_eq_some_iff {r : ScopeRecord} : t.record? i = some r ↔ t.HasRecord i r := by
  rw [record?, Option.bind_eq_some_iff]
  exact Iff.rfl

theorem working_eq {r : ScopeRecord} (h : t.record? i = some r) : t.working i = r.working := by
  rw [working, h]
  rfl

/-- Every key is that of a record, of an entry or of the epoch, and every entry stands at a revision
that has been written. -/
structure Filed (t : Table) : Prop where
  key : ∀ k stored, t.get? k = some stored →
    (∃ i, k = recordKey i) ∨ (∃ name i n, k = entryKey name i n) ∨ k = epochKey
  entry : ∀ name i n stored, t.get? (entryKey name i n) = some stored → 1 ≤ n ∧ n ≤ t.working i

theorem Coherent.filed (h : t.Coherent) : t.Filed where
  key := h.key
  entry name i n stored hs := by
    obtain ⟨-, -, r, hr, positive, written⟩ := h.entry name i n stored hs
    rw [working_eq (record?_eq_some_iff.mpr hr)]
    exact ⟨positive, written⟩

/-- What starts like the entries of a property in a scope is one of them. -/
theorem exists_entryKey (key : ∀ k stored, t.get? k = some stored →
      (∃ i, k = recordKey i) ∨ (∃ name i n, k = entryKey name i n) ∨ k = epochKey)
    {r : Row} (hr : r ∈ t.rows) (start : startsWith (entryPrefix name i) r.1) :
    ∃ n, r.1 = entryKey name i n ∧ t.get? (entryKey name i n) = some r.2 := by
  have stored : t.get? r.1 = some r.2 := mem_rows_iff.mp hr
  rcases key r.1 r.2 stored with ⟨j, key⟩ | ⟨name', j, n, key⟩ | key
  · rw [key, not_startsWith_entryPrefix_recordKey] at start
    cases start
  · rw [key, startsWith_iff] at start
    obtain ⟨rfl, rfl⟩ := entryPrefix_prefix_entryKey.mp start
    exact ⟨n, key, key ▸ stored⟩
  · rw [key, not_startsWith_entryPrefix_epochKey] at start
    cases start

theorem Filed.exists_entryKey (h : t.Filed) {r : Row} (hr : r ∈ t.rows)
    (start : startsWith (entryPrefix name i) r.1) :
    ∃ n, r.1 = entryKey name i n ∧ t.get? (entryKey name i n) = some r.2 :=
  Table.exists_entryKey h.key hr start

/-! ## Entries kept

Under the prefix of a property in a scope the rows of two tables are compared, one of which keeps
what the other has. Up to the highest revision written they are the same, so a floor look-up there
has the same answer, and what is new comes after all of them. -/

namespace Keeps

/-- Up to the highest revision written, no entry comes, goes or changes. -/
theorem get?_entryKey (h : t.Keeps t') (filed : t.Filed) (filed' : t'.Filed)
    (written : n ≤ t.working i) : t'.get? (entryKey name i n) = t.get? (entryKey name i n) := by
  cases hr : t.record? i with
  | some r => exact h.entry name i r n (record?_eq_some_iff.mp hr) (working_eq hr ▸ written)
  | none =>
      -- only revision zero is left, at which nothing ever stands
      have nothing {t : Table} (filed : t.Filed) : t.get? (entryKey name i n) = none := by
        refine Option.eq_none_iff_forall_ne_some.mpr fun stored hs => ?_
        have zero : n ≤ 0 := by rwa [working, hr] at written
        exact UInt64.not_lt.mpr (UInt64.le_trans (filed.entry _ _ _ _ hs).1 zero) (by decide)
      rw [nothing filed, nothing filed']

/-- **The floor look-up at a revision that has been written.** -/
theorem floor_eq (h : t.Keeps t') (filed : t.Filed) (filed' : t'.Filed)
    (written : n ≤ t.working i) :
    t'.floor (entryPrefix name i) (entryKey name i n) =
      t.floor (entryPrefix name i) (entryKey name i n) := by
  apply floor_eq_of_get?_eq
  intro k start le
  -- what is there of the property, in either table, is an entry up to the revision
  have kept {m : Revision} (le : entryKey name i m ≤ entryKey name i n) :
      t'.get? (entryKey name i m) = t.get? (entryKey name i m) :=
    h.get?_entryKey filed filed' (UInt64.le_trans (entryKey_le_iff.mp le) written)
  cases hk : t.get? k with
  | some stored =>
      obtain ⟨m, key, -⟩ := filed.exists_entryKey (mem_rows_iff.mpr hk) start
      obtain rfl : k = entryKey name i m := key
      rw [← hk, kept le]
  | none =>
      cases hk' : t'.get? k with
      | none => rfl
      | some stored =>
          obtain ⟨m, key, -⟩ := filed'.exists_entryKey (mem_rows_iff.mpr hk') start
          obtain rfl : k = entryKey name i m := key
          rw [← hk', kept le, hk]

/-- **The entries that have come are behind those that were there.** -/
theorem scan_eq_append (h : t.Keeps t') (filed : t.Filed) (filed' : t'.Filed) :
    t'.scan (entryPrefix name i) = t.scan (entryPrefix name i) ++
      (t'.scan (entryPrefix name i)).filter (fun r => entryKey name i (t.working i) < r.1) := by
  -- what was there is not behind the working revision
  have low : ∀ r ∈ t.scan (entryPrefix name i), r.1 ≤ entryKey name i (t.working i) := by
    intro r hr
    obtain ⟨mem, start⟩ := mem_scan_iff.mp hr
    obtain ⟨n, key, stored⟩ := filed.exists_entryKey mem start
    rw [key]
    exact entryKey_le_iff.mpr (filed.entry _ _ _ _ stored).2
  refine rows_eq_of_mem_iff (t'.sorted_scan _) (List.pairwise_append.mpr ⟨t.sorted_scan _,
    (t'.sorted_scan _).filter _, fun a ha b hb => ?_⟩) fun r => ?_
  · have high := (List.mem_filter.mp hb).2
    exact Std.lt_of_le_of_lt (low a ha) (of_decide_eq_true high)
  · rw [List.mem_append, List.mem_filter, decide_eq_true_eq]
    constructor
    · intro hr
      by_cases high : entryKey name i (t.working i) < r.1
      · exact .inr ⟨hr, high⟩
      · obtain ⟨mem, start⟩ := mem_scan_iff.mp hr
        obtain ⟨n, key, stored⟩ := filed'.exists_entryKey mem start
        have written : n ≤ t.working i := entryKey_le_iff.mp (key ▸ Std.not_lt.mp high)
        rw [h.get?_entryKey filed filed' written] at stored
        exact .inl (mem_scan_iff.mpr ⟨mem_rows_iff.mpr (key ▸ stored), start⟩)
    · rintro (hr | ⟨hr, -⟩)
      · obtain ⟨mem, start⟩ := mem_scan_iff.mp hr
        obtain ⟨n, key, stored⟩ := filed.exists_entryKey mem start
        have kept : t'.get? (entryKey name i n) = t.get? (entryKey name i n) :=
          h.get?_entryKey filed filed' (filed.entry _ _ _ _ stored).2
        rw [stored] at kept
        exact mem_scan_iff.mpr ⟨mem_rows_iff.mpr (key ▸ kept), start⟩
      · exact hr

end Keeps

end Table

/-! ## What reads make of them

A read at a revision loads the record, and looks for an entry if the record has such a revision. It
is written out as a function of the table here (`Store.readAt_run`), so that what is kept of rows is
kept of the read. -/

variable {U : Scope → Prop} {t t' : Table} {name : String} {s : Scope} {n : Revision}

theorem Store.recordOf_run (decodes : ∀ stored, t.get? (recordKey s.id) = some stored →
    ∃ r, ScopeRecord.unpack? stored.value = some r) :
    (recordOf s).run t = (.ok (t.record? s.id), t) := by
  show ((load s).bind fun loaded => .done (.ok (if loaded.exists? then some loaded.record else none))).run
    t = _
  rw [Session.run_bind, load_run, Table.record?]
  cases hs : t.get? (recordKey s.id) with
  | none => rfl
  | some stored =>
      obtain ⟨r, unpack⟩ := decodes stored hs
      rw [loadedOf, decodeRecord_eq_ok_iff.mpr unpack, Option.bind_some, unpack]
      rfl

theorem Table.Coherent.recordOf_run (h : t.Coherent) (s : Scope) :
    (recordOf s).run t = (.ok (t.record? s.id), t) :=
  Store.recordOf_run fun stored hs => (h.record s.id stored hs).imp fun _ record => record.1

theorem Store.readRecorded_run (name : String) (s : Scope) (n : Revision) (found : Option ScopeRecord)
    (t : Table) :
    (readRecorded name s n found).run t =
      (if found.any fun r => r.hasRevision n then
        (entryOf (entryPrefix name s.id) (t.floor (entryPrefix name s.id) (entryKey name s.id n))).map
          fun entry => ⟨name, s, found.bind fun r => entry.map (hitOf r.scope)⟩
      else .ok ⟨name, s, none⟩, t) := by
  cases found with
  | none => rfl
  | some r =>
      by_cases known : r.hasRevision n
      · simp only [readRecorded, known, if_true, Option.any_some]
        rw [Session.run_bind, entryAsOf_run]
        cases entryOf (entryPrefix name s.id)
          (t.floor (entryPrefix name s.id) (entryKey name s.id n)) <;> rfl
      · simp only [readRecorded, known, if_false, Option.any_some, Bool.false_eq_true]
        rfl

/-- A read at a revision depends on the record, and on the entries if the revision has been written. -/
theorem Store.readAt_run {found : Option ScopeRecord} (record : (recordOf s).run t = (.ok found, t)) :
    (readAt name s n).run t =
      (if found.any fun r => r.hasRevision n then
        (entryOf (entryPrefix name s.id) (t.floor (entryPrefix name s.id) (entryKey name s.id n))).map
          fun entry => ⟨name, s, found.bind fun r => entry.map (hitOf r.scope)⟩
      else .ok ⟨name, s, none⟩, t) := by
  rw [readAt_eq, Session.run_bind_of_ok record, readRecorded_run]

/-- A read at a revision that has been written is a floor look-up. -/
theorem Table.Coherent.readAt_run (h : t.Coherent) {r : ScopeRecord} (hr : t.record? s.id = some r)
    (written : r.hasRevision n) :
    (readAt name s n).run t = ((entryOf (entryPrefix name s.id)
      (t.floor (entryPrefix name s.id) (entryKey name s.id n))).map fun found =>
        ⟨name, s, found.map (hitOf r.scope)⟩, t) := by
  rw [Store.readAt_run (h.recordOf_run s), hr, if_pos (by simpa using written)]
  rfl

/-- **What is read at a revision that has been written is read there for ever.** -/
theorem Table.Keeps.readAt_run (h : t.Keeps t') (coherent : t.Coherent) (coherent' : t'.Coherent)
    (positive : 1 ≤ n) (written : n ≤ t.working s.id) :
    (readAt name s n).run t' = (((readAt name s n).run t).1, t') := by
  cases hr : t.record? s.id with
  | none =>
      have zero : n ≤ 0 := by rwa [Table.working, hr] at written
      exact absurd (UInt64.le_trans positive zero) (by decide)
  | some r =>
      obtain ⟨r', hr', scope, le⟩ := h.record _ r (Table.record?_eq_some_iff.mp hr)
      have known : n ≤ r.working := Table.working_eq hr ▸ written
      have nonzero : n ≠ 0 := Revision.one_le_iff.mp positive
      rw [coherent.readAt_run hr (ScopeRecord.hasRevision_iff.mpr ⟨nonzero, known⟩),
        coherent'.readAt_run (Table.record?_eq_some_iff.mpr hr')
          (ScopeRecord.hasRevision_iff.mpr ⟨nonzero, UInt64.le_trans known le⟩),
        h.floor_eq coherent.filed coherent'.filed written, scope]

/-! ## Histories

A history decodes the rows below a prefix, one by one. In a coherent table they all decode, and the
history of the later table is that of the earlier one with the decoded rest behind it. -/

theorem decodeEntries_append (pre : String) (rows rows' : List Row) :
    decodeEntries pre (rows ++ rows') = (do
      let es ← decodeEntries pre rows
      let es' ← decodeEntries pre rows'
      return es ++ es') := by
  induction rows with
  | nil => cases h : decodeEntries pre rows' <;> simp [decodeEntries, h, bind, Except.bind, pure, Except.pure]
  | cons row rows ih =>
      rw [List.cons_append, decodeEntries, decodeEntries, ih]
      split
      · cases decodeEntry row.2.value with
        | error e => rfl
        | ok e =>
            cases decodeEntries pre rows with
            | error e => rfl
            | ok es => cases decodeEntries pre rows' <;> rfl
      · rfl

/-- The rows under the prefix of a property in a scope are entries, whose revisions their keys tell. -/
theorem Table.Coherent.decodeEntries_eq_ok (h : t.Coherent) {i : ScopeId} (P : Revision → Prop)
    {rows : List Row} (sub : ∀ r ∈ rows, r ∈ t.scan (entryPrefix name i))
    (hP : ∀ r ∈ rows, ∀ n, r.1 = entryKey name i n → P n) :
    ∃ es, decodeEntries (entryPrefix name i) rows = .ok es ∧ ∀ e ∈ es, P e.revision := by
  induction rows with
  | nil => exact ⟨[], rfl, fun e he => absurd he List.not_mem_nil⟩
  | cons row rows ih =>
      obtain ⟨hrow, sub⟩ := List.forall_mem_cons.mp sub
      obtain ⟨hn, hP⟩ := List.forall_mem_cons.mp hP
      obtain ⟨es, decoded, hes⟩ := ih sub hP
      obtain ⟨mem, start⟩ := mem_scan_iff.mp hrow
      obtain ⟨n, key, stored⟩ := h.filed.exists_entryKey mem start
      obtain ⟨-, ⟨e, unpack, rfl⟩, -⟩ := h.entry name i n row.2 stored
      refine ⟨e :: es, ?_, List.forall_mem_cons.mpr ⟨hn _ key, hes⟩⟩
      rw [decodeEntries, key, revision?_entryKey, if_pos Option.isSome_some, decodeEntry, unpack, decoded]
      rfl

/-- **A history is continued at revisions above those that were there.** -/
theorem Table.Keeps.historyOf_run (h : t.Keeps t') (coherent : t.Coherent)
    (coherent' : t'.Coherent) (name : String) (s : Scope) :
    ∃ es new, (historyOf name s).run t = (.ok es, t) ∧
      (historyOf name s).run t' = (.ok (es ++ new), t') ∧
      ∀ e ∈ new, t.working s.id < e.revision := by
  obtain ⟨es, old, -⟩ := coherent.decodeEntries_eq_ok (fun _ => True)
    (fun r (hr : r ∈ t.scan (entryPrefix name s.id)) => hr) fun _ _ _ _ => trivial
  have behind : ∀ r ∈ (t'.scan (entryPrefix name s.id)).filter
      (fun r => entryKey name s.id (t.working s.id) < r.1),
      ∀ n, r.1 = entryKey name s.id n → t.working s.id < n := by
    intro r hr n key
    have lt := of_decide_eq_true (List.mem_filter.mp hr).2
    rw [key] at lt
    exact UInt64.not_le.mp fun le => Std.not_lt.mpr (entryKey_le_iff.mpr le) lt
  obtain ⟨new, come, above⟩ := coherent'.decodeEntries_eq_ok (fun n => t.working s.id < n)
    (fun r hr => (List.mem_filter.mp hr).1) behind
  refine ⟨es, new, ?_, ?_, above⟩
  · show (Session.done (decodeEntries _ _)).run t = _
    rw [old]
    rfl
  · show (Session.done (decodeEntries _ (t'.scan (entryPrefix name s.id)))).run t' = _
    rw [h.scan_eq_append coherent.filed coherent'.filed, decodeEntries_append, old, come]
    rfl

/-! ## Batches that only read

Such a batch is its check ahead and its reads. Where it is one read at a revision, it is that read,
with the outcome put into a list. -/

theorem Session.collect_singleton_bind {α β γ : Type} (f : α → Session β) (a : α)
    (g : List β → Session γ) : (collect f [a]).bind g = (f a).bind fun b => g [b] := by
  show ((f a).bind fun b => .done (.ok [b])).bind g = _
  rw [bind_assoc]
  rfl

theorem Operation.filterMap_of_reads {ops : List Operation} (reads : ∀ op ∈ ops, op.isRead) :
    ops.filterMap assignment? = [] ∧ ops.filterMap activation? = [] := by
  rw [List.filterMap_eq_nil_iff, List.filterMap_eq_nil_iff]
  refine ⟨fun op hop => ?_, fun op hop => ?_⟩ <;>
  · have read := reads op hop
    cases op <;> first | rfl | cases read

/-- A batch that only reads is its check ahead and its reads. -/
theorem execute_eq_of_reads (settings : Settings) (ids : Nat → BatchId) {ops : List Operation}
    (reads : ∀ op ∈ ops, op.isRead) :
    execute settings ids ops =
      (catalogIf (ops.any Operation.needsCatalog)).bind fun c =>
      (Session.done (preflight c ops)).bind fun _ =>
      (Session.collect (answer settings.fallback c) ops).bind fun answers =>
      .done (.ok (arrange ops [] [] answers)) := by
  obtain ⟨assigns, activates⟩ := Operation.filterMap_of_reads reads
  rw [execute_eq, writePhase, activatePhase, assigns, activates]
  simp only [reload, assigns, activates, List.isEmpty_nil, Bool.not_true, Bool.or_self,
    Bool.and_false, Bool.false_eq_true, if_false, if_true, Session.collect]
  rfl

theorem preflight_of_isRead (c : Catalog) {op : Operation} (read : op.isRead) :
    preflight c [op] = check c op := by
  cases op with
  | assign | activate => cases read
  | read | list =>
      show (check c _).bind (fun _ => .ok ()) = check c _
      cases check c _ <;> rfl

/-- A member of a batch that reads at a revision. -/
theorem answer_read_eq (fallback : Fallback) (c : Catalog) {q : Query}
    (hs : scopeOf q.params = .ok s) (hn : q.revision = some n) :
    answer fallback c (.read q) =
      (readAt q.name s n).bind fun reading => .done (.ok (some (.value reading))) := by
  rw [answer, hs, hn]
  rfl

/-- A batch of one read at a revision. -/
theorem execute_read_eq (settings : Settings) (ids : Nat → BatchId) {q : Query}
    (hs : scopeOf q.params = .ok s) (hn : q.revision = some n) :
    execute settings ids [.read q] =
      (readAt q.name s n).bind fun reading => .done (.ok [.value reading]) := by
  have needs : [Operation.read q].any Operation.needsCatalog = false := by
    simp [Operation.needsCatalog, hn]
  have passes : check ⟨[]⟩ (.read q) = .ok () := by
    rw [check, hs, hn]
    rfl
  rw [execute_eq_of_reads settings ids (by simp [Operation.isRead]), needs]
  show (Session.done (preflight ⟨[]⟩ [.read q])).bind _ = _
  rw [preflight_of_isRead _ rfl, passes]
  show (Session.collect _ [Operation.read q]).bind _ = _
  rw [Session.collect_singleton_bind, answer_read_eq _ _ hs hn, Session.bind_assoc]
  rfl

/-! ## Schedules

The two moments of the statement are a schedule and a continuation of it. The table at the later one
keeps what the earlier one has written (`System.run_keeps`). -/

namespace System

variable {ι : Type} [DecidableEq ι]

/-- **Revisions that have been written are frozen.** -/
theorem written_revisions_frozen (sep : Scope.Separated U) (moves more : List (Move ι))
    (within : ∀ h c, .call h c ∈ moves ++ more → c.Within U)
    (fits : ∀ h c, .call h c ∈ moves ++ more → c.Fits)
    (roomy : ∀ k ∈ (run (moves ++ more)).log, k.before.Roomy) (settings : Settings)
    (ids : Nat → BatchId) (name : String) {params : List Parameter} (hs : scopeOf params = .ok s) :
    ∃ record es new,
      (metadata params).run (run moves).table = (.ok record, (run moves).table) ∧
      (∀ n, 1 ≤ n → n ≤ (record.map ScopeRecord.working).getD 0 → ∃ reading,
        (execute settings ids [.read ⟨name, params, some n⟩]).run (run moves).table =
          (.ok [.value reading], (run moves).table) ∧
        (execute settings ids [.read ⟨name, params, some n⟩]).run (run (moves ++ more)).table =
          (.ok [.value reading], (run (moves ++ more)).table)) ∧
      (history name params).run (run moves).table = (.ok es, (run moves).table) ∧
      (history name params).run (run (moves ++ more)).table =
        (.ok (es ++ new), (run (moves ++ more)).table) ∧
      (∀ e ∈ new, (record.map ScopeRecord.working).getD 0 < e.revision) ∧
      ∀ i r, (run moves).table.HasRecord i r → ∃ r', (run (moves ++ more)).table.HasRecord i r' ∧
        r'.scope = r.scope ∧ r.working ≤ r'.working := by
  obtain ⟨l, l', depicts, depicts', coherent, coherent', kept⟩ :=
    run_keeps sep moves more within fits roomy
  have keeps := depicts.keeps sep depicts' kept
  have before := depicts.coherent sep coherent
  have after := depicts'.coherent sep coherent'
  obtain ⟨es, new, old, come, above⟩ := keeps.historyOf_run before after name s
  refine ⟨(run moves).table.record? s.id, es, new, ?_, fun n positive written => ?_, ?_, ?_, above,
    keeps.record⟩
  · rw [metadata, Session.bind_eq, Session.run_done_bind_eq_ok]
    exact ⟨s, hs, before.recordOf_run s⟩
  · obtain ⟨reading, run⟩ := depicts.readAt_answers sep coherent.fits name s n
    have run' : (readAt name s n).run _ = _ := keeps.readAt_run before after positive written
    rw [run] at run'
    refine ⟨reading, ?_, ?_⟩
    · rw [execute_read_eq settings ids hs rfl, Session.run_bind_of_ok run]
      rfl
    · rw [execute_read_eq settings ids hs rfl, Session.run_bind_of_ok run']
      rfl
  · rw [history, Session.bind_eq, Session.run_done_bind_eq_ok]
    exact ⟨s, hs, old⟩
  · rw [history, Session.bind_eq, Session.run_done_bind_eq_ok]
    exact ⟨s, hs, come⟩

/-- What may come after `race`: another write, and an activation of an older revision. -/
def rollback : List (Move Bool) :=
  [.call true (.write (.immediate 2) (.stamped 1) [⟨"limit", .integer 3, []⟩]), .serve true,
    .serve true, .call false (.activate (.immediate 1) ⟨[], some 1⟩), .serve false, .serve false,
    .serve false, .serve false]

theorem rollback_within : ∀ h c, .call h c ∈ race ++ rollback → c.Within Scope.Sample ∧ c.Fits :=
  forall_call_iff.mpr (by decide +kernel)

theorem rollback_roomy : ∀ k ∈ (run (race ++ rollback)).log, k.before.Roomy :=
  run_roomy_of_length Scope.separated_sample (race ++ rollback)
    (fun h c hc => (rollback_within h c hc).1) (by decide)

theorem race_frozen_under_rollback :
    ∃ record es new reading,
      (metadata []).run (run race).table = (.ok record, (run race).table) ∧
      record.map ScopeRecord.working = some 2 ∧
      (execute {} (.stamped 2) [.read ⟨"limit", [], some 1⟩]).run (run race).table =
        (.ok [.value reading], (run race).table) ∧
      (execute {} (.stamped 2) [.read ⟨"limit", [], some 1⟩]).run (run (race ++ rollback)).table =
        (.ok [.value reading], (run (race ++ rollback)).table) ∧
      (history "limit" []).run (run race).table = (.ok es, (run race).table) ∧
      (history "limit" []).run (run (race ++ rollback)).table =
        (.ok (es ++ new), (run (race ++ rollback)).table) ∧
      ∀ e ∈ new, 2 < e.revision := by
  have inside := rollback_within
  obtain ⟨record, es, new, recorded, frozen, old, come, above, -⟩ :=
    written_revisions_frozen Scope.separated_sample race rollback (fun h c hc => (inside h c hc).1)
      (fun h c hc => (inside h c hc).2) rollback_roomy {} (.stamped 2) "limit"
      (show scopeOf [] = .ok Scope.global from rfl)
  have working : (((metadata []).run (run race).table).1.toOption.bind fun record =>
      record.map ScopeRecord.working) = some 2 := by decide +kernel
  rw [recorded] at working
  have working : record.map ScopeRecord.working = some 2 := working
  rw [working] at frozen above
  obtain ⟨reading, before, after⟩ := frozen 1 (by decide) (by decide)
  exact ⟨record, es, new, reading, recorded, working, before, after, old, come, above⟩

end System

end ScopedConfig
