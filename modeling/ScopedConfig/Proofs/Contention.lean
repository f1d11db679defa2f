import Mathlib.Data.List.Infix
import ScopedConfig.Proofs.Guests
import ScopedConfig.Proofs.Puts

/-!
# Conflicts come from contention

A transaction expects versions that were read earlier, and is refused where one of them has moved
on. Nothing but a call of somebody else moves them. The record of a scope changes only with a call
that names the scope (`Call.Does.names`), and the epoch only with one that records a scope
(`Leads.exists_creates`). Nor does a transaction get in its own way: while its records are as they
were loaded, there is no entry yet at the revisions that it takes (`Ledger.Orderly.entries_next`),
and its puts come after what it expects (`Store.stageBatch_refuses`).

`Store.attemptWrite_ends` and `Store.attemptActivate_ends` follow an attempt of a guest along its
requests, and `Store.optimistic_ends` adds attempts up. `System.conflicts_come_from_contention` states
what comes of it for every schedule.
-/

namespace ScopedConfig

open Layout Store

variable {U : Scope → Prop} {t t' : Table} {l : Ledger} {s : Scope}

/-! ## Whom a commit concerns

The words of the statement. A commit touches a scope if the record there is not the same after it,
and it creates one if a record is there after it that was not before; that its call names the scope
is then shown, not assumed (`Call.Does.names`). -/

/-- The call writes or activates in the scope. -/
def Call.Names : Call → Scope → Prop
  | .write _ _ assignments, s =>
    ∃ a ∈ assignments, ∃ r, scopeOf a.params = .ok r ∧ r.canonical = s.canonical
  | .activate _ a, s => ∃ r, scopeOf a.params = .ok r ∧ r.canonical = s.canonical
  | .advance _ r, s => r.canonical = s.canonical
  | .setActive _ r _, s => r.canonical = s.canonical

/-- How often the call may be attempted. -/
def Call.policy : Call → RetryPolicy
  | .write policy _ _ | .activate policy _ | .advance policy _ | .setActive policy _ _ => policy

namespace Commit

/-- The transaction changed the record of the scope, and its call is about the scope. -/
structure Touches (k : Commit) (s : Scope) : Prop where
  change : k.after.get? (recordKey s.id) ≠ k.before.get? (recordKey s.id)
  names : k.call.Names s

/-- The transaction recorded a scope for the first time. -/
def Creates (k : Commit) : Prop :=
  ∃ i, k.before.get? (recordKey i) = none ∧ k.after.get? (recordKey i) ≠ none

/-- The transaction changed what the call relies on: the record of one of its scopes or, if it is an
activation, which scopes there are. -/
def Contends (k : Commit) (c : Call) : Prop :=
  (∃ s, c.Names s ∧ k.Touches s) ∨ (c.activation?.isSome ∧ k.Creates)

end Commit

namespace Store

/-- The keys that a batch puts. -/
theorem mem_puts_stageBatch {allotments : List Allotment} {slots : List Slot} {key : String}
    (h : key ∈ ((stageBatch allotments slots).filterMap Op.put?).map Prod.fst) :
    (∃ a ∈ allotments, key = a.loaded.key) ∨ key = epochKey ∨
      ∃ s ∈ slots, key = entryKey s.name s.scope.id s.entry.revision := by
  obtain ⟨⟨_, value⟩, hput, rfl⟩ := List.mem_map.mp h
  obtain ⟨op, hop, put⟩ := List.mem_filterMap.mp hput
  rcases List.mem_append.mp hop with hop | hop
  · obtain ⟨a, ha, hop⟩ := List.mem_flatMap.mp hop
    simp only [Loaded.stageAdvance, Loaded.replace, List.mem_append, List.mem_cons,
      List.not_mem_nil, or_false] at hop
    rcases hop with (rfl | rfl) | hop
    · cases put
    · cases put
      exact .inl ⟨a, ha, rfl⟩
    · split at hop
      · cases hop
      · cases List.mem_singleton.mp hop
        cases put
        exact .inr (.inl rfl)
  · obtain ⟨s, hs, hop⟩ := List.mem_flatMap.mp hop
    simp only [Slot.stage, stageEntry, List.mem_cons, List.not_mem_nil, or_false] at hop
    rcases hop with rfl | rfl
    · cases put
    · cases put
      exact .inr (.inr ⟨s, hs, rfl⟩)

end Store

/-- A put under the key of another scope's record changes nothing here. -/
theorem Table.canonical_eq_of_put (sep : Scope.Separated U) {r : Scope} (hr : U r) (hs : U s)
    {value : Bytes}
    (change : (t.put (recordKey r.id) value).get? (recordKey s.id) ≠ t.get? (recordKey s.id)) :
    r.canonical = s.canonical := by
  by_contra ne
  apply change
  apply get?_put_of_ne
  intro same
  exact ne ((sep.recordKey_eq_iff hs hr).mp same).symm

/-- **A call changes the records of no scopes but those that it names.** -/
theorem Call.Does.names (sep : Scope.Separated U) (h : t.Depicts U l) {c : Call} {r : Reply}
    (within : c.Within U) (does : c.Does t r t') (hs : U s)
    (change : t'.get? (recordKey s.id) ≠ t.get? (recordKey s.id)) : c.Names s := by
  cases does.answeredBy with
  | write policy ids assignments r =>
      obtain ⟨placed, n, places, run⟩ := does
      have hp := Call.placeable within places
      rw [h.attemptWrite_run_eq sep hp, Session.run_transact_done_eq_ok] at run
      by_contra unnamed
      apply change
      apply run.2.get?_eq
      intro put
      rcases mem_puts_stageBatch put with ⟨a, ha, key⟩ | key | ⟨slot, -, key⟩
      · -- the key is that of a scope of the batch
        obtain ⟨q, hq, rfl⟩ := List.mem_map.mp ha
        have key : recordKey s.id = recordKey q.id := key.trans (Loaded.key_eq rfl)
        obtain ⟨p, hp', rfl⟩ := List.mem_map.mp (Scope.mem_distinct hq)
        obtain ⟨rfl, scopes, -⟩ := place_eq_ok_iff.mp places
        refine unnamed ⟨p.assignment, List.mem_map_of_mem hp', p.scope, scopes p hp', ?_⟩
        exact ((sep.recordKey_eq_iff hs (hp.used p hp')).mp key).symm
      · exact recordKey_ne_epochKey s.id key
      · exact recordKey_ne_entryKey s.id _ _ _ key
  | activate policy a r =>
      obtain ⟨q, hq, run⟩ := does
      obtain ⟨p, n, -, -, rfl⟩ := (h.attemptActivate_run_eq_ok_iff sep (within q hq)).mp run
      exact ⟨q, hq, Table.canonical_eq_of_put sep (within q hq) hs change⟩
  | advance policy q n =>
      have run : (attemptAdvance q).run t = (.ok n, t') := does
      rw [attemptAdvance, Session.bind_eq, Session.run_bind_of_ok (h.load_run sep within)] at run
      obtain ⟨-, commits⟩ := Session.run_transact_done_eq_ok.mp run
      obtain ⟨-, rfl⟩ := commits_stageAdvance.mp commits
      by_contra other
      apply change
      apply get?_advanced
      · intro key
        have key : recordKey s.id = recordKey q.id := key.trans (Loaded.key_eq rfl)
        exact other ((sep.recordKey_eq_iff hs within).mp key).symm
      · exact recordKey_ne_epochKey s.id
  | setActive policy q n =>
      obtain ⟨p, -, -, -, rfl⟩ := (h.attemptSetActive_run_eq_ok_iff sep within).mp does
      exact Table.canonical_eq_of_put sep within hs change

namespace Leads

variable {ks : List Commit}

/-- **Where the record of a scope is at another version, a call that names it has come between.** -/
theorem exists_touches (sep : Scope.Separated U) (ht : t.Sound U) (leads : Leads U t ks t')
    (hs : U s) (ne : t'.version? (recordKey s.id) ≠ t.version? (recordKey s.id)) :
    ∃ k ∈ ks, k.Touches s := by
  have changed : t'.get? (recordKey s.id) ≠ t.get? (recordKey s.id) := by
    intro same
    apply ne
    rw [Table.version?, Table.version?, same]
  obtain ⟨k, hk, change⟩ := leads.exists_change changed
  obtain ⟨⟨l, depicts⟩, within, r, does⟩ := leads.of_mem sep ht hk
  exact ⟨k, hk, change, does.names sep depicts within hs change⟩

/-- **Where the epoch is at another version, a scope has been recorded.** -/
theorem exists_creates (sep : Scope.Separated U) (ht : t.Sound U) (leads : Leads U t ks t')
    (ne : t'.version? epochKey ≠ t.version? epochKey) : ∃ k ∈ ks, k.Creates := by
  have changed : t'.get? epochKey ≠ t.get? epochKey := by
    intro same
    apply ne
    rw [Table.version?, Table.version?, same]
  obtain ⟨k, hk, change⟩ := leads.exists_change changed
  obtain ⟨⟨l, depicts⟩, within, r, does⟩ := leads.of_mem sep ht hk
  obtain ⟨l', -, depicts'⟩ := Call.exists_serves sep depicts within does
  refine ⟨k, hk, ?_⟩
  by_contra none
  -- without new records there are as many as there were, so the epoch is where it was
  have sub : (k.after.scan recordPrefix).map Prod.fst ⊆ (k.before.scan recordPrefix).map Prod.fst := by
    intro key hkey
    obtain ⟨start, stored⟩ := Table.mem_keys_scan_iff.mp hkey
    refine Table.mem_keys_scan_iff.mpr ⟨start, fun absent => ?_⟩
    obtain ⟨found, hfound⟩ := Option.ne_none_iff_exists'.mp stored
    rcases depicts'.key key found hfound with ⟨q, -, rfl⟩ | ⟨name, q, n, -, rfl⟩ | rfl
    · exact none ⟨q.id, absent, stored⟩
    · rw [not_startsWith_entryKey] at start
      cases start
    · rw [not_startsWith_epochKey] at start
      cases start
  have count : k.after.count recordPrefix = k.before.count recordPrefix := by
    apply Nat.le_antisymm
    · rw [Table.count_eq_length_keys, Table.count_eq_length_keys]
      exact (Table.keys_nodup_scan _ _).length_le_of_subset sub
    · exact does.growsTo.count_le recordPrefix
  apply change
  rw [depicts'.epoch, depicts.epoch, count]

end Leads

/-! ## What refuses a transaction

A transaction is refused by the first of its operations that does not hold. Those are guards on
versions, and the puts of entries, which must be new; the latter are reached only when all records
are as they were loaded. -/

namespace Store

variable {e : BackendError}

/-- An advance is refused for the version of its record and for nothing else. -/
theorem stageAdvance_refuses {loaded : Loaded} (h : t.Refuses loaded.stageAdvance e) :
    t.version? loaded.key ≠ loaded.version ∧
      e = .conditionFailed loaded.key loaded.version (t.version? loaded.key) := by
  have holds : ∀ u : Table, ¬ u.Refuses (if loaded.exists? then [] else [.put epochKey []]) e := by
    intro u refuses
    split at refuses
    · exact Table.Refuses.not_nil refuses
    · exact Table.Refuses.not_nil (Table.Refuses.put_iff.mp refuses)
  rw [Loaded.stageAdvance, Loaded.replace, List.cons_append, List.singleton_append,
    Table.Refuses.expect_iff, Table.Refuses.put_iff] at h
  rcases h with failed | ⟨-, refuses⟩
  · exact failed
  · exact absurd refuses (holds _)

/-- Of several advances, one is refused in that way. The records are those of different scopes, so
what an earlier advance puts does not move the version that a later one expects. -/
theorem stageAdvances_refuse {allotments : List Allotment}
    (distinct : (allotments.map fun a => a.loaded.key).Nodup)
    (h : t.Refuses (allotments.flatMap (·.loaded.stageAdvance)) e) :
    ∃ a ∈ allotments, t.version? a.loaded.key ≠ a.loaded.version ∧
      e = .conditionFailed a.loaded.key a.loaded.version (t.version? a.loaded.key) := by
  induction allotments generalizing t with
  | nil => exact absurd h Table.Refuses.not_nil
  | cons a allotments ih =>
      obtain ⟨first, distinct⟩ := List.nodup_cons.mp distinct
      rw [List.flatMap_cons, Table.Refuses.append_iff] at h
      rcases h with refuses | ⟨mid, commits, refuses⟩
      · exact ⟨a, List.mem_cons_self, stageAdvance_refuses refuses⟩
      · obtain ⟨-, rfl⟩ := commits_stageAdvance.mp commits
        obtain ⟨b, hb, failed⟩ := ih distinct refuses
        have ne : b.loaded.key ≠ a.loaded.key := fun eq => first (List.mem_map.mpr ⟨b, hb, eq⟩)
        rw [Table.version?, get?_advanced ne (recordKey_ne_epochKey _)] at failed
        exact ⟨b, List.mem_cons_of_mem a hb, failed⟩

/-- **A batch is refused for one of its records, or all of them are as they were loaded.** -/
theorem stageBatch_refuses {allotments : List Allotment} {slots : List Slot}
    (distinct : (allotments.map fun a => a.loaded.key).Nodup)
    (h : t.Refuses (stageBatch allotments slots) e) :
    (∃ a ∈ allotments, t.version? a.loaded.key ≠ a.loaded.version ∧
      e = .conditionFailed a.loaded.key a.loaded.version (t.version? a.loaded.key)) ∨
    ∀ a ∈ allotments, t.version? a.loaded.key = a.loaded.version := by
  rw [stageBatch, Table.Refuses.append_iff] at h
  rcases h with refuses | ⟨mid, commits, -⟩
  · exact .inl (stageAdvances_refuse distinct refuses)
  · exact .inr ((exists_commits_stageAdvances_iff distinct).mp ⟨mid, commits⟩)

theorem stageActivation_eq_error {loaded : Loaded} {n : Revision} {e : StoreError}
    (staged : loaded.stageActivation n = .error e) :
    e = .unknownScope loaded.record.scope ∨
      ∃ working, e = .invalidRevision loaded.record.scope n working := by
  unfold Loaded.stageActivation at staged
  split at staged
  · cases staged
    exact .inl rfl
  · split at staged <;> cases staged
    exact .inr ⟨_, rfl⟩

/-- An activation that has passed its own checks is refused for the version of its record. -/
theorem stageActivation_refuses {loaded : Loaded} {n : Revision} {ops : List Op}
    (staged : loaded.stageActivation n = .ok ops) (h : t.Refuses ops e) :
    t.version? loaded.key ≠ loaded.version ∧
      e = .conditionFailed loaded.key loaded.version (t.version? loaded.key) := by
  obtain ⟨-, -, rfl⟩ := stageActivation_eq_ok staged
  rw [Loaded.replace, Table.Refuses.expect_iff, Table.Refuses.put_iff] at h
  rcases h with failed | ⟨-, refuses⟩
  · exact failed
  · exact absurd refuses Table.Refuses.not_nil

end Store

/-! ## What a guest has seen

A guest remembers its requests with the tables that they met (`Scene.Saw`). If a key is at another
version when the guest commits, one of the commits that others have put through in between has
changed it. -/

/-- The second scene may be what the first one is when the guest makes its next request, while there
are revisions left. -/
abbrev Disturbed (U : Scope → Prop) : Scene → Scene → Prop :=
  Scene.Later U (fun k => k.before.Roomy) fun _ => True

/-- The table depicts an orderly ledger. -/
def Table.Orderly (U : Scope → Prop) (t : Table) : Prop := ∃ l, t.Depicts U l ∧ l.Orderly

theorem Table.Orderly.sound (h : t.Orderly U) : t.Sound U := by
  obtain ⟨l, depicts, -⟩ := h
  exact ⟨l, depicts⟩

/-- The guest has made this request, and others have led from the table that it met to the table
now. -/
structure Scene.Saw (U : Scope → Prop) (σ : Scene) (v : Stop) : Prop where
  stop : v ∈ σ.stops
  moment : v.moment ≤ σ.log.length
  leads : Leads U v.table (σ.log.drop v.moment) σ.table

namespace Scene

variable {P : Commit → Prop} {Q : Table → Prop} {σ σ' : Scene} {v : Stop} {request : Request}

/-- The log only gets longer. -/
theorem Later.log_le (h : σ.Later U P Q σ') : σ.log <+: σ'.log := by
  obtain ⟨ks, log, -⟩ := h.leads
  exact ⟨ks, log.symm⟩

/-- Others leave an orderly ledger. -/
theorem Later.orderly (sep : Scope.Separated U) (h : Disturbed U σ σ') (ht : σ.table.Orderly U) :
    σ'.table.Orderly U := by
  obtain ⟨l, depicts, orderly⟩ := ht
  obtain ⟨ks, -, leads, roomy⟩ := h.leads
  apply leads.exists_ledger sep depicts orderly
  intro k hk l r l' depicts orderly serves
  exact orderly.serves (depicts.roomy sep (roomy k hk)) serves

theorem Saw.later (h : σ.Saw U v) (later : σ.Later U P Q σ') : σ'.Saw U v := by
  obtain ⟨ks, log, leads, -⟩ := later.leads
  refine ⟨later.stops ▸ h.stop, Nat.le_trans h.moment later.log_le.length_le, ?_⟩
  rw [log, List.drop_append_of_le_length h.moment]
  exact h.leads.trans leads

/-- A request that only reads leaves everything in sight. -/
theorem Saw.serve (h : σ.Saw U v) (reading : request.isTransaction = false) :
    (σ.serve request).Saw U v := by
  refine ⟨List.mem_append_left _ h.stop, h.moment, ?_⟩
  show Leads U v.table _ (σ.table.answer request).2
  rw [Table.answer_of_reading reading]
  exact h.leads

/-- The request just made. -/
theorem saw_serve (σ : Scene) (reading : request.isTransaction = false) :
    (σ.serve request).Saw U ⟨⟨request, σ.table⟩, σ.log.length⟩ := by
  refine ⟨List.mem_append_right _ (List.mem_singleton_self _), Nat.le_refl _, ?_⟩
  show Leads U σ.table (σ.log.drop σ.log.length) (σ.table.answer request).2
  rw [Table.answer_of_reading reading, List.drop_length]
  rfl

theorem serve_orderly (ht : σ.table.Orderly U) (reading : request.isTransaction = false) :
    (σ.serve request).table.Orderly U := by
  show (σ.table.answer request).2.Orderly U
  rwa [Table.answer_of_reading reading]

end Scene

/-- A refused transaction changes nothing. -/
theorem Scene.serve_refused {σ : Scene} {ops : List Op} {e : BackendError}
    (ht : σ.table.Orderly U) (refuses : σ.table.Refuses ops e) :
    (σ.serve (.transact ops)).table.Orderly U := by
  show (σ.table.transact ops).2.Orderly U
  rwa [Table.transact, show σ.table.applyAll ops = .error e from refuses]

/-! ## Single requests of guests

One rule for each request that an attempt makes: others come first, the answer is that of the table
which they leave, and a request that only reads leaves this table as it is. -/

namespace Session.Ends

variable {others : Scene → Scene → Prop} {σ : Scene}

theorem load {post : Except StoreError Loaded → Scene → Prop}
    (h : ∀ σ', others σ σ' →
      post ((Store.load s).run σ'.table).1 (σ'.serve (.get (recordKey s.id)))) :
    (Store.load s).Ends others post σ := by
  apply of_single _ h
  intro answer
  rcases answer with e | _ | stored
  · exact ⟨_, rfl⟩
  · exact ⟨_, rfl⟩
  · show ∃ result, (done (decodeRecord stored.value)).bind _ = done result
    cases decodeRecord stored.value <;> exact ⟨_, rfl⟩

theorem epoch {post : Except StoreError (Option Nat) → Scene → Prop}
    (h : ∀ σ', others σ σ' → post (.ok (σ'.table.version? epochKey)) (σ'.serve (.get epochKey))) :
    Store.epoch.Ends others post σ := by
  apply of_single _ h
  intro answer
  cases answer <;> exact ⟨_, rfl⟩

theorem catalog {post : Except StoreError Catalog → Scene → Prop}
    (h : ∀ σ', others σ σ' →
      post (Store.catalog.run σ'.table).1 (σ'.serve (.scan recordPrefix))) :
    Store.catalog.Ends others post σ := by
  apply of_single _ h
  intro answer
  rcases answer with e | rows
  · exact ⟨_, rfl⟩
  · show ∃ result, ((done (decodeRecords rows)).bind _ : Session Catalog) = done result
    cases decodeRecords rows <;> exact ⟨_, rfl⟩

/-- A transaction that ends the session: it goes through or is refused. -/
theorem transact {α : Type} {ops : List Op} {b : α} {post : Except StoreError α → Scene → Prop}
    (commits : ∀ σ' t', others σ σ' → σ'.table.Commits ops t' →
      post (.ok b) ⟨t', σ'.log, (σ'.serve (.transact ops)).stops⟩)
    (refuses : ∀ σ' e, others σ σ' → σ'.table.Refuses ops e →
      post (.error (.backend e)) (σ'.serve (.transact ops))) :
    ((Session.transact ops).bind fun _ => done (.ok b)).Ends others post σ := by
  intro σ' later
  show Session.Ends others post ((done ((σ'.table.transact ops).1.mapError .backend)).bind _) _
  cases answer : (σ'.table.transact ops).1 with
  | ok results => exact commits σ' _ later (Table.commits_of_transact answer)
  | error e => exact refuses σ' e later (.of_transact answer)

/-- Whatever a session does, the log only gets longer. -/
theorem log_le {α : Type} {P : Commit → Prop} {Q : Table → Prop} (x : Session α) (σ : Scene) :
    x.Ends (Scene.Later U P Q) (fun _ σ' => σ.log <+: σ'.log) σ := by
  induction x generalizing σ with
  | done result => exact List.prefix_refl _
  | ask request next ih =>
      intro σ' later
      apply (ih _ (σ'.serve request)).imp
      intro _ _ longer
      exact later.log_le.trans longer

end Session.Ends

/-! ## Attempts of guests

An attempt loads, checks and commits. Along the way it is kept that whatever was loaded was loaded
of a table that others have only gone on from (`Scene.HasLoaded`), until the transaction is refused
and somebody has to be found who is the reason (`Scene.Overtaken`). -/

/-- The guest has loaded the record of a scope, not before a moment. -/
def Scene.HasLoaded (U : Scope → Prop) (σ : Scene) (n : Nat) (s : Scope) (loaded : Loaded) : Prop :=
  ∃ v, σ.Saw U v ∧ n ≤ v.moment ∧ v.request = .get (recordKey s.id) ∧ v.table.Sound U ∧
    (load s).run v.table = (.ok loaded, v.table)

/-- Between the answer to an earlier request, not before a moment, and its last request, a
transaction, the guest was overtaken by a transaction of others of which `R` holds. -/
def Scene.Overtaken (σ : Scene) (n : Nat) (request : Request) (R : Commit → Prop) : Prop :=
  ∃ v ∈ σ.stops, n ≤ v.moment ∧ v.request = request ∧
    (∃ w, σ.stops.getLast? = some w ∧ w.request.isTransaction ∧ w.moment = σ.log.length) ∧
    ∃ k ∈ σ.log.drop v.moment, R k

theorem Scene.Overtaken.exists_mem {σ : Scene} {n : Nat} {request : Request} {R : Commit → Prop}
    (h : σ.Overtaken n request R) : ∃ k ∈ σ.log.drop n, R k := by
  obtain ⟨v, -, le, -, -, k, hk, hR⟩ := h
  exact ⟨k, List.drop_subset_drop_left _ le hk, hR⟩

namespace Scene.HasLoaded

variable {σ σ' : Scene} {n : Nat} {loaded : Loaded}

theorem later {P : Commit → Prop} {Q : Table → Prop} (h : σ.HasLoaded U n s loaded)
    (later : σ.Later U P Q σ') : σ'.HasLoaded U n s loaded := by
  obtain ⟨v, saw, rest⟩ := h
  exact ⟨v, saw.later later, rest⟩

theorem serve (h : σ.HasLoaded U n s loaded) {request : Request}
    (reading : request.isTransaction = false) : (σ.serve request).HasLoaded U n s loaded := by
  obtain ⟨v, saw, rest⟩ := h
  exact ⟨v, saw.serve reading, rest⟩

/-- The record just loaded. -/
theorem of_run (ht : σ.table.Sound U) (le : n ≤ σ.log.length)
    (run : (load s).run σ.table = (.ok loaded, σ.table)) :
    (σ.serve (.get (recordKey s.id))).HasLoaded U n s loaded :=
  ⟨_, σ.saw_serve rfl, le, rfl, ht, run⟩

theorem key (sep : Scope.Separated U) (hs : U s) (h : σ.HasLoaded U n s loaded) :
    loaded.key = recordKey s.id := by
  obtain ⟨v, -, -, -, sound, run⟩ := h
  exact (loaded_of_sound sep hs sound run).1

/-- At its version the record would be loaded again. -/
theorem again (sep : Scope.Separated U) (hs : U s) (h : σ.HasLoaded U n s loaded)
    (same : σ.table.version? loaded.key = loaded.version) :
    (load s).run σ.table = (.ok loaded, σ.table) := by
  obtain ⟨v, saw, -, -, sound, run⟩ := h
  exact load_again sep hs sound saw.leads.growsTo run same

/-- **A transaction that finds the record at another version was overtaken by one that changed it.** -/
theorem overtaken (sep : Scope.Separated U) (hs : U s) (h : σ.HasLoaded U n s loaded)
    (ne : σ.table.version? loaded.key ≠ loaded.version) (ops : List Op) :
    (σ.serve (.transact ops)).Overtaken n (.get (recordKey s.id)) (·.Touches s) := by
  obtain ⟨v, saw, le, request, sound, run⟩ := h
  obtain ⟨key, version⟩ := loaded_of_sound sep hs sound run
  rw [key, ← version] at ne
  refine ⟨v, List.mem_append_left _ saw.stop, le, request, ?_, saw.leads.exists_touches sep sound hs ne⟩
  exact ⟨_, List.getLast?_concat, rfl, rfl⟩

end Scene.HasLoaded

namespace Store

variable {σ : Scene} {placed : List Placed} {batch : BatchId}

/-- **Loading a record** gives one that has been seen, since the table depicts a ledger whenever the
request meets it. -/
theorem load_ends (sep : Scope.Separated U) (hs : U s) (ht : σ.table.Orderly U) {n : Nat}
    (le : n ≤ σ.log.length) :
    (load s).Ends (Disturbed U) (fun r σ' => σ'.table.Orderly U ∧ n ≤ σ'.log.length ∧
      ∃ loaded, r = .ok loaded ∧ σ'.HasLoaded U n s loaded) σ := by
  apply Session.Ends.load
  intro σ' later
  obtain ⟨l, depicts, orderly⟩ := later.orderly sep ht
  have ht' : σ'.table.Orderly U := ⟨l, depicts, orderly⟩
  have le' : n ≤ σ'.log.length := Nat.le_trans le later.log_le.length_le
  have run := depicts.load_run sep hs
  rw [run]
  exact ⟨Scene.serve_orderly ht' rfl, le', _, rfl, .of_run ht'.sound le' run⟩

/-- Loading the records of the scopes of a batch. -/
theorem collect_allot_ends (sep : Scope.Separated U) {scopes : List Scope} (used : ∀ s ∈ scopes, U s)
    (ht : σ.table.Orderly U) {n : Nat} (le : n ≤ σ.log.length) :
    (Session.collect allot scopes).Ends (Disturbed U) (fun r σ' => σ'.table.Orderly U ∧
      ∃ as, r = .ok as ∧ List.Forall₂ (fun s a => a.scope = s ∧ σ'.HasLoaded U n s a.loaded) scopes as)
      σ := by
  induction scopes generalizing σ with
  | nil => exact ⟨ht, [], rfl, .nil⟩
  | cons s scopes ih =>
      obtain ⟨hs, used⟩ := List.forall_mem_cons.mp used
      have first : (allot s).Ends (Disturbed U) (fun r σ' => σ'.table.Orderly U ∧ n ≤ σ'.log.length ∧
          ∃ a, r = .ok a ∧ a.scope = s ∧ σ'.HasLoaded U n s a.loaded) σ := by
        apply (load_ends sep hs ht le).bind
        · rintro loaded σ' ⟨ht', le', _, ⟨⟩, has⟩
          exact ⟨ht', le', _, rfl, rfl, has⟩
        · rintro e σ' ⟨-, -, _, ⟨⟩, -⟩
      rw [Session.collect]
      apply first.bind
      · rintro a σ' ⟨ht', le', _, ⟨⟩, scope, has⟩
        -- the first record stays in sight while the others are loaded
        have reads (s : Scope) : (allot s).Reads := .bind (load_reads s) fun _ => trivial
        have stays : (Session.collect allot scopes).Ends (Disturbed U)
            (fun _ σ'' => σ''.HasLoaded U n s a.loaded) σ' :=
          .of_reads (.collect reads scopes) has (fun _ _ later has => has.later later)
            fun _ _ reading has => has.serve reading
        apply ((ih used ht' le').and stays).bind
        · rintro as σ'' ⟨⟨ht'', _, ⟨⟩, rest⟩, has⟩
          exact ⟨ht'', _, rfl, .cons ⟨scope, has⟩ rest⟩
        · rintro e σ'' ⟨⟨-, _, ⟨⟩, -⟩, -⟩
      · rintro e σ' ⟨-, -, _, ⟨⟩, -⟩

/-- **An attempt at a write fails only if the record of one of its scopes was changed after it had
been loaded.** -/
theorem attemptWrite_ends (sep : Scope.Separated U) (hp : Placeable U placed) (batch : BatchId)
    (ht : σ.table.Orderly U) :
    (attemptWrite placed batch).Ends (Disturbed U) (fun r σ' => ∀ e, r = .error e →
      σ'.table.Orderly U ∧ ∃ p ∈ placed,
        (∃ expected actual,
          e = .backend (.conditionFailed (recordKey p.scope.id) expected actual)) ∧
        σ'.Overtaken σ.log.length (.get (recordKey p.scope.id)) (·.Touches p.scope)) σ := by
  apply (collect_allot_ends sep hp.used_distinct ht (Nat.le_refl _)).bind
  · rintro as σ₁ ⟨ht₁, _, ⟨⟩, loads⟩
    apply Session.Ends.transact
    · rintro σ₂ t₂ later commits e ⟨⟩
    · rintro σ₂ e later refuses _ ⟨⟩
      have ht₂ := later.orderly sep ht₁
      have loaded : ∀ a ∈ as, U a.scope ∧ a.scope ∈ Scope.distinct (placed.map Placed.scope) ∧
          σ₂.HasLoaded U σ.log.length a.scope a.loaded := by
        intro a ha
        obtain ⟨s, hs, scope, has⟩ := exists_left_of_forall₂ loads ha
        cases scope
        exact ⟨hp.used_distinct _ hs, hs, has.later later⟩
      have scopes : as.map Allotment.scope = Scope.distinct (placed.map Placed.scope) := by
        rw [← List.forall₂_eq_eq_eq, List.forall₂_map_left_iff]
        exact (loads.imp fun s a h => h.1).flip
      have keys : (as.map fun a => a.loaded.key).Nodup := by
        have := hp.nodup_recordKey sep
        rw [← scopes, List.map_map] at this
        rwa [List.map_congr_left fun a ha => (loaded a ha).2.2.key sep (loaded a ha).1]
      rcases stageBatch_refuses keys refuses with ⟨a, ha, ne, eq⟩ | same
      · obtain ⟨hs, mem, has⟩ := loaded a ha
        obtain ⟨p, hp', scope⟩ := List.mem_map.mp (Scope.mem_distinct mem)
        rw [← scope] at hs has
        have at_key : e = .conditionFailed (recordKey p.scope.id) a.loaded.version
            (σ₂.table.version? a.loaded.key) := by rw [eq, has.key sep hs]
        exact ⟨Scene.serve_refused ht₂ refuses, p, hp', ⟨_, _, congrArg _ at_key⟩,
          has.overtaken sep hs ne _⟩
      · -- all records are as they were loaded, so the transaction would have gone through
        exfalso
        obtain ⟨l, depicts, orderly⟩ := ht₂
        have again : as = (Scope.distinct (placed.map Placed.scope)).map (l.allotment σ₂.table) := by
          rw [← scopes, List.map_map]
          conv_lhs => rw [← List.map_id as]
          refine List.map_congr_left fun a ha => ?_
          obtain ⟨hs, -, has⟩ := loaded a ha
          have run := (depicts.load_run sep hs).symm.trans (has.again sep hs (same a ha))
          cases a
          simp only [Prod.mk.injEq, Except.ok.injEq, and_true] at run
          simp [Ledger.allotment, run]
        rw [again, hp.filterMap_slotFor? sep] at refuses
        obtain ⟨t', commits⟩ := depicts.exists_stageBatch sep hp batch
          fun p _ => orderly.entries_next _ _
        exact refuses.not_commits commits
  · rintro e σ₁ ⟨-, _, ⟨⟩, -⟩

/-- Reads leave in sight what is in sight. -/
theorem reads_end (sep : Scope.Separated U) {α : Type} {x : Session α} (reads : x.Reads)
    (ht : σ.table.Orderly U) {v : Stop} (saw : σ.Saw U v) :
    x.Ends (Disturbed U) (fun _ σ' => σ'.table.Orderly U ∧ σ'.Saw U v) σ := by
  apply Session.Ends.of_reads reads (I := fun σ' => σ'.table.Orderly U ∧ σ'.Saw U v) ⟨ht, saw⟩
  · rintro σ₁ σ₂ later ⟨ht, saw⟩
    exact ⟨later.orderly sep ht, saw.later later⟩
  · rintro σ₁ r reading ⟨ht, saw⟩
    exact ⟨Scene.serve_orderly ht reading, saw.serve reading⟩

/-- The conflicts that an activation may meet. -/
inductive Blames (s : Scope) : StoreError → (Commit → Prop) → Prop where
  | epoch (expected actual : Option Nat) :
    Blames s (.backend (.conditionFailed epochKey expected actual)) Commit.Creates
  | record (expected actual : Option Nat) :
    Blames s (.backend (.conditionFailed (recordKey s.id) expected actual)) (·.Touches s)

/-- **An attempt at an activation meets a conflict only if after its first request a scope was
recorded, or its own record changed.** -/
theorem attemptActivate_ends (sep : Scope.Separated U) (hs : U s) (revision : Option Revision)
    (ht : σ.table.Orderly U) :
    (attemptActivate s revision).Ends (Disturbed U) (fun r σ' => ∀ e, r = .error e →
      σ'.table.Orderly U ∧ (∀ n, e ≠ .retriesExhausted n) ∧
      (e.isConflict → ∃ R, Blames s e R ∧ σ'.Overtaken σ.log.length (.get epochKey) R)) σ := by
  have reads_epoch : epoch.Ends (Disturbed U) (fun r σ' => σ'.table.Orderly U ∧ ∃ v, σ'.Saw U v ∧
      σ.log.length ≤ v.moment ∧ v.request = .get epochKey ∧ v.table.Sound U ∧
      r = .ok (v.table.version? epochKey)) σ := by
    apply Session.Ends.epoch
    intro σ' later
    have ht' := later.orderly sep ht
    exact ⟨Scene.serve_orderly ht' rfl, _, σ'.saw_serve rfl, later.log_le.length_le, rfl,
      ht'.sound, rfl⟩
  have reads_catalog {σ₁ : Scene} (ht₁ : σ₁.table.Orderly U) {v : Stop} (saw : σ₁.Saw U v) :
      catalog.Ends (Disturbed U) (fun r σ' => σ'.table.Orderly U ∧ σ'.Saw U v ∧ ∃ c, r = .ok c) σ₁ := by
    apply Session.Ends.catalog
    intro σ' later
    obtain ⟨l, depicts, orderly⟩ := later.orderly sep ht₁
    obtain ⟨c, run, -⟩ := depicts.catalog_run sep
    rw [run]
    exact ⟨Scene.serve_orderly ⟨l, depicts, orderly⟩ rfl, (saw.later later).serve rfl, c, rfl⟩
  apply reads_epoch.bind
  · rintro _ σ₁ ⟨ht₁, v, saw₁, le, request, sound, ⟨⟩⟩
    apply (reads_catalog ht₁ saw₁).bind
    · rintro c σ₂ ⟨ht₂, saw₂, _, ⟨⟩⟩
      cases conflicts : c.checkConflicts s with
      | error e =>
          rintro _ ⟨⟩
          obtain ⟨a, b, rfl⟩ := Catalog.exists_of_checkConflicts conflicts
          exact ⟨ht₂, nofun, nofun⟩
      | ok u =>
          -- the record is loaded after the epoch
          apply ((load_ends sep hs ht₂ saw₂.moment).and (reads_end sep (load_reads s) ht₂ saw₂)).bind
          · rintro loaded σ₃ ⟨⟨ht₃, -, _, ⟨⟩, has⟩, -, saw₃⟩
            show ((Session.done (loaded.stageActivation (revision.getD loaded.record.working))).bind
              _).Ends _ _ σ₃
            cases staged : loaded.stageActivation (revision.getD loaded.record.working) with
            | error e =>
                rintro _ ⟨⟩
                rcases stageActivation_eq_error staged with rfl | ⟨w, rfl⟩ <;>
                exact ⟨ht₃, nofun, nofun⟩
            | ok ops =>
                apply Session.Ends.transact
                · rintro σ₄ t₄ later commits e ⟨⟩
                · rintro σ₄ e later refuses _ ⟨⟩
                  have ht₄ := Scene.serve_refused (later.orderly sep ht₃) refuses
                  refine ⟨ht₄, nofun, fun _ => ?_⟩
                  rcases Table.Refuses.expect_iff.mp refuses with ⟨ne, rfl⟩ | ⟨-, refuses'⟩
                  · refine ⟨_, .epoch _ _, v, List.mem_append_left _ (saw₃.later later).stop, le,
                      request, ⟨_, List.getLast?_concat, rfl, rfl⟩, ?_⟩
                    exact (saw₃.later later).leads.exists_creates sep sound ne
                  · obtain ⟨ne, rfl⟩ := stageActivation_refuses staged refuses'
                    have has₄ := has.later later
                    obtain ⟨w, -, after, -, last, k, hk, touches⟩ :=
                      has₄.overtaken sep hs ne (.expect epochKey (v.table.version? epochKey) :: ops)
                    rw [has₄.key sep hs]
                    refine ⟨_, .record _ _, v, List.mem_append_left _ (saw₃.later later).stop, le,
                      request, last, k, ?_, touches⟩
                    exact List.drop_subset_drop_left _ after hk
          · rintro e σ₃ ⟨⟨-, -, _, ⟨⟩, -⟩, -⟩
    · rintro e σ₂ ⟨-, -, _, ⟨⟩⟩
  · rintro e σ₁ ⟨-, v, -, -, -, -, ⟨⟩⟩

/-! ## Calls of guests

A call makes its attempts one after another, and each that fails by a conflict has a commit of
somebody else to blame, in a stretch of the log of its own. These stretches do not overlap, so when
the attempts are used up there are as many commits as attempts (`optimistic_ends`). -/

theorem placeAfter_ne_retriesExhausted (before : List Placed) (as : List Assignment) (n : Nat) :
    placeAfter before as ≠ .error (.retriesExhausted n) := by
  induction as generalizing before with
  | nil => rintro ⟨⟩
  | cons a as ih =>
      rw [placeAfter]
      cases hs : scopeOf a.params with
      | error e =>
          obtain ⟨e', -, rfl⟩ := scopeOf_eq_error_iff.mp hs
          rintro ⟨⟩
      | ok s =>
          simp only
          split
          · rintro ⟨⟩
          · exact ih _

/-- **Attempts are exhausted only if each of them was overtaken.** -/
theorem optimistic_ends {α : Type} {policy : RetryPolicy} {attempt : Nat → Session α}
    {R : Commit → Prop} (ht : σ.table.Orderly U)
    (h : ∀ n σ, σ.table.Orderly U → (attempt n).Ends (Disturbed U) (fun r σ' => ∀ e, r = .error e →
      σ'.table.Orderly U ∧ (∀ m, e ≠ .retriesExhausted m) ∧
      (e.isConflict → ∃ k ∈ σ'.log.drop σ.log.length, R k)) σ) :
    (Session.optimistic policy attempt).Ends (Disturbed U) (fun r σ' => ∀ m,
      r = .error (.retriesExhausted m) → m = policy.attempts ∧ ∃ ks : List Commit,
        ks.Sublist (σ'.log.drop σ.log.length) ∧ ks.length = policy.attempts ∧ ∀ k ∈ ks, R k) σ := by
  -- after the `n`-th conflict there have been `n` transactions of that kind
  let I (n : Nat) (σ' : Scene) : Prop := σ'.table.Orderly U ∧ σ.log <+: σ'.log ∧ ∃ ks : List Commit,
    ks.Sublist (σ'.log.drop σ.log.length) ∧ ks.length = n ∧ ∀ k ∈ ks, R k
  apply Session.Ends.optimistic (I := I)
  · exact ⟨ht, List.prefix_refl _, [], List.nil_sublist _, rfl, fun k hk => absurd hk List.not_mem_nil⟩
  · rintro n σ₁ ⟨ht₁, ⟨earlier, log₁⟩, ks, sub, length, hks⟩
    apply ((h n σ₁ ht₁).and (.log_le (attempt n) σ₁)).imp
    rintro r σ₂ ⟨failed, ⟨now, log₂⟩⟩
    refine ⟨nofun, fun e he => ?_⟩
    obtain ⟨ht₂, not_exhausted, overtaken⟩ := failed e he
    split
    · next conflict =>
      obtain ⟨k, hk, hR⟩ := overtaken conflict
      -- what came during this attempt comes after what came during the others
      rw [← log₁, List.drop_left] at sub
      rw [← log₂, List.drop_left] at hk
      refine ⟨ht₂, ⟨earlier ++ now, by rw [← log₂, ← log₁, List.append_assoc]⟩, ks ++ [k], ?_, ?_, ?_⟩
      · rw [← log₂, ← log₁, List.append_assoc, List.drop_left]
        exact sub.append (List.singleton_sublist.mpr hk)
      · rw [List.length_append, length, List.length_singleton]
      · exact List.forall_mem_append.mpr ⟨hks, List.forall_mem_singleton.mpr hR⟩
    · rintro m ⟨⟩
      exact absurd rfl (not_exhausted m)
  · rintro σ' ⟨-, -, exhausted⟩ m ⟨⟩
    exact ⟨rfl, exhausted⟩

/-- What exhausts a call: as many transactions of others as it may make attempts, each of which
changed what the call relies on. -/
def Exhausted (c : Call) (n : Nat) (ks : List Commit) : Prop :=
  n = c.policy.attempts ∧ ∃ sub : List Commit, sub.Sublist ks ∧ sub.length = c.policy.attempts ∧
    ∀ k ∈ sub, k.Contends c

/-- A write gives up only if each of its attempts was overtaken in one of its scopes. -/
theorem write_ends (sep : Scope.Separated U) {policy : RetryPolicy} {ids : Nat → BatchId}
    {as : List Assignment} (within : (Call.write policy ids as).Within U) (ht : σ.table.Orderly U) :
    (write policy ids as).Ends (Disturbed U) (fun r σ' => ∀ n, r = .error (.retriesExhausted n) →
      Exhausted (.write policy ids as) n (σ'.log.drop σ.log.length)) σ := by
  show ((Session.done (place as)).bind _).Ends _ _ σ
  cases places : place as with
  | error e =>
      rintro n ⟨⟩
      exact absurd places (placeAfter_ne_retriesExhausted [] as n)
  | ok placed =>
      obtain ⟨assignments, scopes, -⟩ := place_eq_ok_iff.mp places
      have hp := Call.placeable within places
      show (if placed.isEmpty then _ else _ : Session WriteReceipt).Ends _ _ σ
      split
      · rintro n ⟨⟩
      · apply optimistic_ends ht
        intro n σ ht
        apply (attemptWrite_ends sep hp (ids n) ht).imp
        intro r σ' failed e he
        obtain ⟨ht', p, hp', ⟨_, _, rfl⟩, overtaken⟩ := failed e he
        refine ⟨ht', nofun, fun _ => ?_⟩
        -- the record that refused is that of a scope the batch names, and one of the commits
        -- touched it
        obtain ⟨k, hk, touches⟩ := overtaken.exists_mem
        refine ⟨k, hk, .inl ⟨p.scope, ⟨p.assignment, ?_, p.scope, scopes p hp', rfl⟩, touches⟩⟩
        exact assignments ▸ List.mem_map_of_mem hp'

/-- An activation gives up only if each of its attempts was overtaken in its scope, or a scope was
recorded meanwhile. -/
theorem activate_ends (sep : Scope.Separated U) {policy : RetryPolicy} {a : Activation}
    (within : (Call.activate policy a).Within U) (ht : σ.table.Orderly U) :
    (activate policy a).Ends (Disturbed U) (fun r σ' => ∀ n, r = .error (.retriesExhausted n) →
      Exhausted (.activate policy a) n (σ'.log.drop σ.log.length)) σ := by
  show ((Session.done (scopeOf a.params)).bind _).Ends _ _ σ
  cases hs : scopeOf a.params with
  | error e =>
      rintro n ⟨⟩
      obtain ⟨e', -, eq⟩ := scopeOf_eq_error_iff.mp hs
      cases eq
  | ok s =>
      apply optimistic_ends ht
      intro n σ ht
      apply (attemptActivate_ends sep (within s hs) a.revision ht).imp
      intro r σ' failed e he
      obtain ⟨ht', not_exhausted, overtaken⟩ := failed e he
      refine ⟨ht', not_exhausted, fun conflict => ?_⟩
      obtain ⟨R, blames, overtaken⟩ := overtaken conflict
      obtain ⟨k, hk, hR⟩ := overtaken.exists_mem
      cases blames with
      | epoch => exact ⟨k, hk, .inr ⟨rfl, hR⟩⟩
      | record => exact ⟨k, hk, .inl ⟨s, ⟨s, hs, rfl⟩, hR⟩⟩

theorem advance_ends (sep : Scope.Separated U) {policy : RetryPolicy} (hs : U s)
    (ht : σ.table.Orderly U) :
    (advance policy s).Ends (Disturbed U) (fun r σ' => ∀ n, r = .error (.retriesExhausted n) →
      Exhausted (.advance policy s) n (σ'.log.drop σ.log.length)) σ := by
  apply optimistic_ends ht
  intro n σ ht
  apply (load_ends sep hs ht (Nat.le_refl _)).bind
  · rintro loaded σ₁ ⟨ht₁, -, _, ⟨⟩, has⟩
    apply Session.Ends.transact
    · rintro σ₂ t₂ later commits e ⟨⟩
    · rintro σ₂ e later refuses _ ⟨⟩
      refine ⟨Scene.serve_refused (later.orderly sep ht₁) refuses, nofun, fun _ => ?_⟩
      obtain ⟨ne, -⟩ := stageAdvance_refuses refuses
      obtain ⟨k, hk, touches⟩ := ((has.later later).overtaken sep hs ne _).exists_mem
      exact ⟨k, hk, .inl ⟨s, rfl, touches⟩⟩
  · rintro e σ₁ ⟨-, -, _, ⟨⟩, -⟩

theorem setActive_ends (sep : Scope.Separated U) {policy : RetryPolicy} (hs : U s) (m : Revision)
    (ht : σ.table.Orderly U) :
    (setActive policy s m).Ends (Disturbed U) (fun r σ' => ∀ n, r = .error (.retriesExhausted n) →
      Exhausted (.setActive policy s m) n (σ'.log.drop σ.log.length)) σ := by
  apply optimistic_ends ht
  intro n σ ht
  apply (load_ends sep hs ht (Nat.le_refl _)).bind
  · rintro loaded σ₁ ⟨ht₁, -, _, ⟨⟩, has⟩
    show ((Session.done (loaded.stageActivation m)).bind _).Ends _ _ σ₁
    cases staged : loaded.stageActivation m with
    | error e =>
        rintro _ ⟨⟩
        rcases stageActivation_eq_error staged with rfl | ⟨w, rfl⟩ <;> exact ⟨ht₁, nofun, nofun⟩
    | ok ops =>
        apply Session.Ends.transact
        · rintro σ₂ t₂ later commits e ⟨⟩
        · rintro σ₂ e later refuses _ ⟨⟩
          refine ⟨Scene.serve_refused (later.orderly sep ht₁) refuses, nofun, fun _ => ?_⟩
          obtain ⟨ne, -⟩ := stageActivation_refuses staged refuses
          obtain ⟨k, hk, touches⟩ := ((has.later later).overtaken sep hs ne _).exists_mem
          exact ⟨k, hk, .inl ⟨s, rfl, touches⟩⟩
  · rintro e σ₁ ⟨-, -, _, ⟨⟩, -⟩

end Store

/-- **A call gives up only if each of its attempts was overtaken.** -/
theorem Call.session_ends (sep : Scope.Separated U) {c : Call} (within : c.Within U) {σ : Scene}
    (ht : σ.table.Orderly U) :
    c.session.Ends (Disturbed U) (fun r σ' => ∀ n, r = .error (.retriesExhausted n) →
      Exhausted c n (σ'.log.drop σ.log.length)) σ := by
  -- What a call answers is made from the result of its session, and no failure is lost or added.
  have map {α : Type} {f : α → Reply} {x : Session α}
      (h : x.Ends (Disturbed U) (fun r σ' => ∀ n, r = .error (.retriesExhausted n) →
        Exhausted c n (σ'.log.drop σ.log.length)) σ) :
      (f <$> x).Ends (Disturbed U) (fun r σ' => ∀ n, r = .error (.retriesExhausted n) →
        Exhausted c n (σ'.log.drop σ.log.length)) σ := by
    apply h.bind
    · rintro a σ' - n ⟨⟩
    · rintro e σ' failed n ⟨⟩
      exact failed n rfl
  cases c with
  | write policy ids assignments => exact map (write_ends sep within ht)
  | activate policy a => exact map (activate_ends sep within ht)
  | advance policy s => exact map (advance_ends sep within ht)
  | setActive policy s n => exact map (setActive_ends sep within n ht)

/-! ## Schedules

What was shown of sessions that end under whatever others do is now said of guests beside a system
(`guest_ends`). The system must not run out of revisions, or else an attempt could find an entry at
a revision that it takes. -/

section Schedules

variable {ι α : Type} [DecidableEq ι]

/-- Between the answer to one of its requests and its last request, a transaction, the guest was
overtaken by a transaction of others of which `R` holds. -/
def Guest.Overtaken (g : Guest ι α) (request : Request) (R : Commit → Prop) : Prop :=
  ∃ v ∈ g.stops, ∃ w, v.request = request ∧ g.stops.getLast? = some w ∧ w.request.isTransaction ∧
    ∃ k ∈ (g.host.log.take w.moment).drop v.moment, R k

omit [DecidableEq ι] in
theorem Scene.Overtaken.guest {g : Guest ι α} {P : Commit → Prop} {Q : Table → Prop} {σ : Scene}
    {n : Nat} {request : Request} {R : Commit → Prop} (h : σ.Overtaken n request R)
    (later : σ.Later U P Q g.scene) : g.Overtaken request R := by
  obtain ⟨v, hv, -, hr, ⟨w, last, transacts, moment⟩, k, hk, hR⟩ := h
  have stops : g.stops = σ.stops := later.stops
  obtain ⟨more, log⟩ := later.log_le
  have log : σ.log ++ more = g.host.log := log
  refine ⟨v, stops ▸ hv, w, hr, stops ▸ last, transacts, k, ?_, hR⟩
  rwa [moment, ← log, List.take_left]

namespace System

variable {moves : List (Move ι)} {schedule : List (Option (Move ι))}

/-- A system that has room above its working revisions has an orderly table. -/
theorem run_orderly (sep : Scope.Separated U) (within : ∀ h c, .call h c ∈ moves → c.Within U)
    (roomy : ∀ k ∈ (run moves).log, k.before.Roomy) : (run moves).table.Orderly U := by
  obtain ⟨replies, l, traced⟩ := run_traced sep moves within
  exact ⟨l, traced.trace.depicts, traced.trace.orderly sep roomy⟩

/-- What a guest comes to, beside a system while there are revisions left. -/
theorem guest_ends (sep : Scope.Separated U) (within : ∀ h c, .call h c ∈ moves → c.Within U)
    (among : ∀ h c, some (.call h c) ∈ schedule → c.Within U) {x : Session α}
    {post : Except StoreError α → Scene → Prop}
    (abides : ∀ t, t.Sound U → x.Abides (Table.Sound U) t)
    (ends : (run moves).table.Orderly U →
      x.Ends (Disturbed U) post ⟨(run moves).table, (run moves).log, []⟩)
    (roomy : ∀ k ∈ (Guest.run (run moves) x schedule).host.log, k.before.Roomy)
    {result : Except StoreError α}
    (ended : (Guest.run (run moves) x schedule).rest = .done result) :
    ∃ σ : Scene, σ.Later U (fun k => k.before.Roomy) (fun _ => True)
      (Guest.run (run moves) x schedule).scene ∧ post result σ := by
  obtain ⟨log, -⟩ := Guest.prefix_foldl ⟨run moves, x, []⟩ schedule
  have orderly := run_orderly sep within fun k hk => roomy k (log.subset hk)
  exact Guest.run_ends sep (run_lively sep moves within) (abides _ orderly.sound) among roomy
    (fun _ _ => trivial) (ends orderly) ended

theorem attemptWrite_abides (sep : Scope.Separated U) {placed : List Placed}
    (hp : Placeable U placed) (batch : BatchId) {t : Table} (ht : t.Sound U) :
    (attemptWrite placed batch).Abides (Table.Sound U) t := by
  have isolated : (attemptWrite placed batch).Isolated (Table.Sound U) (fun _ _ t => t.Sound U)
      (fun _ _ => False) t := by
    apply isolated_attemptWrite sep hp batch _ ht
    rintro t r t' ⟨l, depicts⟩ run
    exact ⟨_, (depicts.of_attemptWrite_run sep hp run).2⟩
  exact .of_isolated isolated fun _ _ _ kept => kept

theorem attemptActivate_abides (sep : Scope.Separated U) {s : Scope} (hs : U s)
    (revision : Option Revision) (t : Table) :
    (attemptActivate s revision).Abides (Table.Sound U) t := by
  have isolated : (attemptActivate s revision).Isolated (Table.Sound U) (fun _ _ t => t.Sound U)
      (fun _ _ => False) t := by
    apply isolated_attemptActivate sep hs revision
    rintro t a t' ⟨l, depicts⟩ run
    obtain ⟨p, n, activates, -, rfl⟩ := (depicts.attemptActivate_run_eq_ok_iff sep hs).mp run
    exact ⟨_, depicts.depicts_activated sep hs activates.recorded n⟩
  exact .of_isolated isolated fun _ _ _ kept => kept

theorem session_abides (sep : Scope.Separated U) {c : Call} (hc : c.Within U) {t : Table}
    (ht : t.Sound U) : c.session.Abides (Table.Sound U) t := by
  apply Session.Abides.of_isolated (Call.isolated_session sep hc ht)
  rintro t r t' ⟨sound, does⟩
  exact does.sound sep hc sound

/-- **Conflicts are never spurious, and retries are bounded by contention.** An attempt at a write
fails only if it was overtaken by a call that changed one of its records, so one that shares no scope
with the calls that come between goes through. An attempt at an activation meets a conflict only if it
was overtaken by a call that changed its record or recorded a scope. A call gives up only after as
many such calls as it may make attempts. -/
theorem conflicts_come_from_contention (sep : Scope.Separated U) (moves : List (Move ι))
    (schedule : List (Option (Move ι))) (within : ∀ h c, .call h c ∈ moves → c.Within U)
    (among : ∀ h c, some (.call h c) ∈ schedule → c.Within U) :
    (∀ placed batch, Placeable U placed →
      ∀ g, g = Guest.run (run moves) (attemptWrite placed batch) schedule →
      (∀ k ∈ g.host.log, k.before.Roomy) → ∀ e, g.rest = .done (.error e) →
      (∃ p ∈ placed, (∃ expected actual,
          e = .backend (.conditionFailed (recordKey p.scope.id) expected actual)) ∧
        g.Overtaken (.get (recordKey p.scope.id)) (·.Touches p.scope)) ∧
      ∃ k ∈ g.host.log.drop (run moves).log.length, ∃ p ∈ placed, k.call.Names p.scope) ∧
    (∀ s revision, U s →
      ∀ g, g = Guest.run (run moves) (attemptActivate s revision) schedule →
      (∀ k ∈ g.host.log, k.before.Roomy) → ∀ e, g.rest = .done (.error e) → e.isConflict →
      ∃ R, Blames s e R ∧ g.Overtaken (.get epochKey) R) ∧
    (∀ c : Call, c.Within U → ∀ g, g = Guest.run (run moves) c.session schedule →
      (∀ k ∈ g.host.log, k.before.Roomy) → ∀ n, g.rest = .done (.error (.retriesExhausted n)) →
      Exhausted c n (g.host.log.drop (run moves).log.length)) := by
  refine ⟨?_, ?_, ?_⟩
  · rintro placed batch hp g rfl roomy e ended
    obtain ⟨σ, later, failed⟩ := guest_ends sep within among
      (fun t ht => attemptWrite_abides sep hp batch ht)
      (fun ht => attemptWrite_ends sep hp batch ht) roomy ended
    obtain ⟨-, p, hp', conflict, overtaken⟩ := failed e rfl
    refine ⟨⟨p, hp', conflict, overtaken.guest later⟩, ?_⟩
    obtain ⟨k, hk, touches⟩ := overtaken.exists_mem
    exact ⟨k, (List.IsPrefix.drop later.log_le _).subset hk, p, hp', touches.names⟩
  · rintro s revision hs g rfl roomy e ended conflict
    obtain ⟨σ, later, failed⟩ := guest_ends sep within among
      (fun t _ => attemptActivate_abides sep hs revision t)
      (fun ht => attemptActivate_ends sep hs revision ht) roomy ended
    obtain ⟨-, -, overtaken⟩ := failed e rfl
    obtain ⟨R, blames, overtaken⟩ := overtaken conflict
    exact ⟨R, blames, overtaken.guest later⟩
  · rintro c hc g rfl roomy n ended
    obtain ⟨σ, later, failed⟩ := guest_ends sep within among
      (fun t ht => session_abides sep hc ht) (fun ht => c.session_ends sep hc ht) roomy ended
    obtain ⟨attempts, sub, sublist, length, contend⟩ := failed n rfl
    exact ⟨attempts, sub, sublist.trans (List.IsPrefix.drop later.log_le _).sublist, length, contend⟩

/-- A write to the global scope, after which there is something to activate there. -/
def opening : List (Move Bool) :=
  [.call true (.write (.immediate 1) (.stamped 0) [⟨"limit", .integer 1, []⟩]), .serve true,
    .serve true]

/-- After the first request of a guest another handle writes to the global scope and to a new one;
then come the other requests of the guest. -/
def crossed : List (Option (Move Bool)) :=
  [none, some (.call false (.write (.immediate 1) (.stamped 1)
      [⟨"limit", .integer 2, []⟩, ⟨"limit", .integer 3, [⟨"env", .exactly "prod"⟩]⟩])),
    some (.serve false), some (.serve false), some (.serve false), none, none, none]

/-- An attempt at a write and an activation, each overtaken by the other handle. -/
theorem crossed_conflicts :
    (Guest.run (run opening) (attemptWrite [⟨.global, ⟨"limit", .integer 4, []⟩⟩] (.stamped 2 0))
      crossed).Overtaken (.get (recordKey Scope.global.id)) (·.Touches .global) ∧
    Exhausted (.activate (.immediate 1) ⟨[], none⟩) 1
      ((Guest.run (run opening) (Call.activate (.immediate 1) ⟨[], none⟩).session
        crossed).host.log.drop (run opening).log.length) := by
  obtain ⟨attempts, -, calls⟩ := conflicts_come_from_contention Scope.separated_sample opening crossed
    (System.forall_call_iff.mpr (by decide +kernel)) (Guest.forall_call_iff.mpr (by decide +kernel))
  constructor
  · have placeable : Placeable Scope.Sample [⟨.global, ⟨"limit", .integer 4, []⟩⟩] := by
      refine ⟨fun p hp => ?_, List.pairwise_singleton _ _⟩
      rw [List.mem_singleton.mp hp]
      exact .inl rfl
    have room : ∀ k ∈ (Guest.run (run opening)
        (attemptWrite [⟨.global, ⟨"limit", .integer 4, []⟩⟩] (.stamped 2 0)) crossed).host.log,
        k.before.hasRoom := by decide +kernel
    have failed : (Guest.run (run opening)
        (attemptWrite [⟨.global, ⟨"limit", .integer 4, []⟩⟩] (.stamped 2 0)) crossed).rest.result? =
        some (.error (.backend (.conditionFailed (recordKey Scope.global.id) (some 1) (some 2)))) := by
      decide +kernel
    obtain ⟨⟨p, hp, -, overtaken⟩, -⟩ := attempts _ (.stamped 2 0) placeable _ rfl
      (fun k hk => Table.roomy_of_hasRoom (room k hk)) _ (Session.result?_eq_some_iff.mp failed)
    rwa [List.mem_singleton.mp hp] at overtaken
  · have room : ∀ k ∈ (Guest.run (run opening)
        (Call.activate (.immediate 1) ⟨[], none⟩).session crossed).host.log, k.before.hasRoom := by
      decide +kernel
    have failed : (Guest.run (run opening)
        (Call.activate (.immediate 1) ⟨[], none⟩).session crossed).rest.result? =
        some (.error (.retriesExhausted 1)) := by decide +kernel
    exact calls _ (by decide +kernel) _ rfl (fun k hk => Table.roomy_of_hasRoom (room k hk)) _
      (Session.result?_eq_some_iff.mp failed)

end System

end Schedules

end ScopedConfig
