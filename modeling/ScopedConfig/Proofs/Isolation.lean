import ScopedConfig.Proofs.Attempts

/-!
# Attempts amid others

An attempt that goes through amid others does what it would do if it were made at the moment of its
transaction, with nobody in between (`isolated_attemptWrite`, `isolated_attemptActivate`,
`isolated_attemptAdvance`, `isolated_attemptSetActive`). The transaction expects every record it read
at the version at which it was read, so what was read is still there; and an activation expects the
epoch where it was before the records were read, so no record has come since.
-/

namespace ScopedConfig.Store

open Layout Session

variable {U : Scope → Prop} {t t' : Table} {s : Scope}

/-! ## Reads

One request that does not put anything through answers as of the table that it meets, which has
grown from the one at the start. That is all there is to keep of it. -/

/-- Loading a record. -/
theorem isolated_load (sound : Table → Prop) (s : Scope) (t : Table) :
    (load s).Isolated sound Isolated.Never
      (fun loaded t' => t.GrowsTo t' ∧ sound t' ∧ (load s).run t' = (.ok loaded, t')) t := by
  refine Isolated.of_request rfl fun stored => ?_
  cases stored with
  | none => exact ⟨_, rfl⟩
  | some stored =>
      show ∃ result, (done (decodeRecord stored.value)).bind _ = done result
      cases decodeRecord stored.value with
      | error e => exact ⟨_, rfl⟩
      | ok r => exact ⟨_, rfl⟩

theorem isolated_epoch (sound : Table → Prop) (t : Table) :
    epoch.Isolated sound Isolated.Never
      (fun e t' => t.GrowsTo t' ∧ sound t' ∧ epoch.run t' = (.ok e, t')) t :=
  Isolated.of_request rfl fun _ => ⟨_, rfl⟩

theorem isolated_catalog (sound : Table → Prop) (t : Table) :
    catalog.Isolated sound Isolated.Never
      (fun c t' => t.GrowsTo t' ∧ sound t' ∧ catalog.run t' = (.ok c, t')) t := by
  have reads : records.Isolated sound Isolated.Never
      (fun rs t' => t.GrowsTo t' ∧ sound t' ∧ records.run t' = (.ok rs, t')) t :=
    Isolated.of_request rfl fun _ => ⟨_, rfl⟩
  refine reads.map (f := Catalog.mk) (fun _ _ _ never => never) fun rs t' ⟨grows, hs, run⟩ => ?_
  exact ⟨grows, hs, run_map_eq_ok.mpr ⟨rs, run, rfl⟩⟩

/-! ## Loaded records

A key at the version at which it was read has the value that it had: a put moves the version on, and
there is no other way to change a value. -/

/-- A record loaded of a sound table, with the key and the version expected of it. -/
theorem loaded_of_sound (sep : Scope.Separated U) (hs : U s) (ht : t.Sound U) {loaded : Loaded}
    (run : (load s).run t = (.ok loaded, t)) :
    loaded.key = recordKey s.id ∧ t.version? (recordKey s.id) = loaded.version := by
  obtain ⟨l, depicts⟩ := ht
  rw [depicts.load_run sep hs] at run
  cases run
  exact ⟨Loaded.key_eq rfl, rfl⟩

/-- **A record at the version at which it was loaded is loaded again.** -/
theorem load_again (sep : Scope.Separated U) (hs : U s) (ht : t.Sound U) (grows : t.GrowsTo t')
    {loaded : Loaded} (run : (load s).run t = (.ok loaded, t))
    (version : t'.version? loaded.key = loaded.version) : (load s).run t' = (.ok loaded, t') := by
  obtain ⟨key, loaded_version⟩ := loaded_of_sound sep hs ht run
  rw [key, ← loaded_version] at version
  exact load_run_of_get?_eq run (grows.get?_eq version)

/-! ## Single records

An advance and the setting of an active revision load one record and replace it. -/

/-- **An advance amid others.** Whatever it is known to do undisturbed, it does when its transaction
goes through. -/
theorem isolated_attemptAdvance (sep : Scope.Separated U) (hs : U s)
    {commit : Table → Revision → Table → Prop}
    (hc : ∀ t n t', t.Sound U → (attemptAdvance s).run t = (.ok n, t') → commit t n t') (t : Table) :
    (attemptAdvance s).Isolated (Table.Sound U) commit (fun _ _ => False) t := by
  refine Isolated.bind (isolated_load _ s t) fun loaded t₁ ⟨_, ht₁, run⟩ => ?_
  refine Isolated.of_transact fun t₂ t₃ grows ht₂ commits => hc t₂ _ t₃ ht₂ ?_
  obtain ⟨version, -⟩ := commits_stageAdvance.mp commits
  rw [attemptAdvance, bind_eq, run_bind_of_ok (load_again sep hs ht₁ grows run version)]
  exact run_transact_done_eq_ok.mpr ⟨rfl, commits⟩

theorem stageActivation_version {loaded : Loaded} {n : Revision} {ops : List Op}
    (staged : loaded.stageActivation n = .ok ops) (commits : t.Commits ops t') :
    t.version? loaded.key = loaded.version := by
  rw [Loaded.stageActivation] at staged
  split at staged
  · cases staged
  · split at staged
    · cases staged
      rw [← List.append_nil (Loaded.replace ..)] at commits
      exact (commits_replace.mp commits).1
    · cases staged

theorem isolated_attemptSetActive (sep : Scope.Separated U) (hs : U s) (n : Revision)
    {commit : Table → Unit → Table → Prop}
    (hc : ∀ t u t', t.Sound U → (attemptSetActive s n).run t = (.ok u, t') → commit t u t')
    (t : Table) :
    (attemptSetActive s n).Isolated (Table.Sound U) commit (fun _ _ => False) t := by
  refine Isolated.bind (isolated_load _ s t) fun loaded t₁ ⟨_, ht₁, run⟩ => ?_
  cases staged : loaded.stageActivation n with
  | error e => trivial
  | ok ops =>
      refine Isolated.of_transact fun t₂ t₃ grows ht₂ commits => hc t₂ _ t₃ ht₂ ?_
      have version := stageActivation_version staged commits
      rw [attemptSetActive, bind_eq, run_bind_of_ok (load_again sep hs ht₁ grows run version),
        bind_eq, run_done_bind_eq_ok]
      exact ⟨ops, staged, run_transact_done_eq_ok.mpr ⟨rfl, commits⟩⟩

/-! ## Writes

A batch loads the records of its scopes one after another, at different moments. Its transaction
expects all of their versions, so on the table where it goes through each would be loaded just as it
was. -/

/-- What was loaded for a scope of a batch, at some moment before. -/
def Loads (U : Scope → Prop) (s : Scope) (a : Allotment) (t : Table) : Prop :=
  a.scope = s ∧ ∃ t₀, t₀.GrowsTo t ∧ t₀.Sound U ∧ (load s).run t₀ = (.ok a.loaded, t₀)

/-- The records of a batch, each as of some moment since the start. -/
theorem isolated_collect_allot (scopes : List Scope) (ht : t.Sound U) :
    (collect allot scopes).Isolated (Table.Sound U) Isolated.Never (fun as t' => t.GrowsTo t' ∧
      t'.Sound U ∧ List.Forall₂ (fun s a => Loads U s a t') scopes as) t := by
  refine Isolated.collect ht (fun s a t t' grows ⟨scope, t₀, grows₀, h⟩ =>
    ⟨scope, t₀, grows₀.trans grows, h⟩) fun s _ t _ => ?_
  refine (isolated_load _ s t).map (f := Allotment.mk s) (fun _ _ _ never => never) ?_
  intro loaded t' ⟨grows, ht', run⟩
  exact ⟨grows, ht', rfl, t', .refl t', ht', run⟩

/-- Allotments whose transaction goes through would be loaded again just as they are. -/
theorem collect_allot_again (sep : Scope.Separated U) {scopes : List Scope} {as : List Allotment}
    {mid : Table} (used : ∀ s ∈ scopes, U s) (nodup : (scopes.map fun s => recordKey s.id).Nodup)
    (loads : List.Forall₂ (fun s a => Loads U s a t) scopes as) (grows : t.GrowsTo t')
    (commits : t'.Commits (as.flatMap (·.loaded.stageAdvance)) mid) :
    (collect allot scopes).run t' = (.ok as, t') := by
  have scopes_eq : as.map Allotment.scope = scopes := by
    rw [← List.forall₂_eq_eq_eq, List.forall₂_map_left_iff]
    exact (loads.imp fun s a h => h.1).flip
  have loaded : ∀ a ∈ as, U a.scope ∧ Loads U a.scope a t := by
    intro a ha
    obtain ⟨s, hs, h⟩ := exists_left_of_forall₂ loads ha
    obtain rfl := h.1
    exact ⟨used _ hs, h⟩
  have keys : as.map (fun a => a.loaded.key) = scopes.map fun s => recordKey s.id := by
    rw [← scopes_eq, List.map_map]
    refine List.map_congr_left fun a ha => ?_
    obtain ⟨hs, -, t₀, -, ht₀, run⟩ := loaded a ha
    exact (loaded_of_sound sep hs ht₀ run).1
  -- no put of the transaction touches the key of a later expectation, so all of them hold of `t'`
  have versions := (exists_commits_stageAdvances_iff (keys ▸ nodup)).mp ⟨mid, commits⟩
  rw [← scopes_eq]
  refine run_collect (List.forall₂_map_left_iff.mpr (List.forall₂_same.mpr fun a ha => ?_))
  obtain ⟨hs, -, t₀, grows₀, ht₀, run⟩ := loaded a ha
  rw [allot, bind_eq,
    run_bind_of_ok (load_again sep hs ht₀ (grows₀.trans grows) run (versions a ha))]
  rfl

/-- **A write amid others.** -/
theorem isolated_attemptWrite (sep : Scope.Separated U) {placed : List Placed}
    (hp : Placeable U placed) (batch : BatchId) {commit : Table → WriteReceipt → Table → Prop}
    (hc : ∀ t r t', t.Sound U → (attemptWrite placed batch).run t = (.ok r, t') → commit t r t')
    (ht : t.Sound U) :
    (attemptWrite placed batch).Isolated (Table.Sound U) commit (fun _ _ => False) t := by
  refine Isolated.bind (isolated_collect_allot _ ht) fun as t₁ ⟨_, _, loads⟩ => ?_
  refine Isolated.of_transact fun t₂ t₃ grows ht₂ commits => hc t₂ _ t₃ ht₂ ?_
  obtain ⟨mid, advances, -⟩ := Table.Commits.append_iff.mp commits
  rw [attemptWrite, bind_eq, run_bind_of_ok
    (collect_allot_again sep hp.used_distinct (hp.nodup_recordKey sep) loads grows advances)]
  exact run_transact_done_eq_ok.mpr ⟨rfl, commits⟩

/-! ## Activations

Of the catalog an activation has no versions to expect. It expects the version of the epoch instead,
which counts the records. If it has not moved, no record has come since, and the scopes that were
checked for conflicts are all that there are. -/

/-- Where the epoch is as it was, there are as many records as there were. -/
theorem count_eq_of_version?_epochKey {l l' : Ledger} (h : t.Depicts U l) (h' : t'.Depicts U l')
    (same : t'.version? epochKey = t.version? epochKey) :
    t'.count recordPrefix = t.count recordPrefix := by
  rw [h.version?_epochKey, h'.version?_epochKey] at same
  split at same <;> split at same
  · next none' none => rw [none', none]
  · cases same
  · cases same
  · exact Option.some.inj same

/-- **No conflict can have come since the records were read, if the epoch was read before.** -/
theorem unambiguous_again {t₀ t₁ t₂ : Table} {l₁ l₂ : Ledger} (ht₀ : t₀.Sound U)
    (h₁ : t₁.Depicts U l₁) (h₂ : t₂.Depicts U l₂) (before : t₀.GrowsTo t₁) (after : t₁.GrowsTo t₂)
    (same : t₂.version? epochKey = t₀.version? epochKey) {q : Scope} (h : l₁.Unambiguous q) :
    l₂.Unambiguous q := by
  obtain ⟨l₀, h₀⟩ := ht₀
  have count : t₂.count recordPrefix ≤ t₁.count recordPrefix := by
    rw [count_eq_of_version?_epochKey h₀ h₂ same]
    exact before.count_le recordPrefix
  -- records are never removed, so as many as before are the same as before
  have known : ∀ a, l₂.pointers a ≠ none → l₁.pointers a ≠ none := by
    intro a ha
    obtain ⟨s, hs, rfl⟩ := h₂.pointers a ha
    have stored := mt (h₂.get?_recordKey_eq_none_iff hs).mp ha
    exact mt (h₁.get?_recordKey_eq_none_iff hs).mpr
      (after.get?_ne_none count (startsWith_recordKey s.id) stored)
  exact fun a b ha hb => h a b (known a ha) (known b hb)

/-- **An activation amid others.** -/
theorem isolated_attemptActivate (sep : Scope.Separated U) (hs : U s) (revision : Option Revision)
    {commit : Table → Activated → Table → Prop}
    (hc : ∀ t a t', t.Sound U → (attemptActivate s revision).run t = (.ok a, t') → commit t a t')
    (t : Table) :
    (attemptActivate s revision).Isolated (Table.Sound U) commit (fun _ _ => False) t := by
  refine Isolated.bind (isolated_epoch _ t) fun e t₁ ⟨_, ht₁, epoch_run₁⟩ => ?_
  refine Isolated.bind (isolated_catalog _ t₁) fun c t₂ ⟨grows₂, ⟨l₂, h₂⟩, catalog_run₂⟩ => ?_
  cases conflicts : c.checkConflicts s with
  | error e => trivial
  | ok u =>
      show ((load s).bind _).Isolated _ _ _ t₂
      refine Isolated.bind (isolated_load _ s t₂) fun loaded t₃ ⟨grows₃, ht₃, run₃⟩ => ?_
      show ((done (loaded.stageActivation (revision.getD loaded.record.working))).bind
        _).Isolated _ _ _ t₃
      cases staged : loaded.stageActivation (revision.getD loaded.record.working) with
      | error e => trivial
      | ok ops =>
          refine Isolated.of_transact fun t₄ t₅ grows₄ ht₄ commits => hc t₄ _ t₅ ht₄ ?_
          obtain ⟨epoch₄, went⟩ := Table.Commits.expect_iff.mp commits
          obtain ⟨l₄, h₄⟩ := ht₄
          obtain ⟨c₂, catalog₂, lists₂⟩ := h₂.catalog_run sep
          obtain ⟨c₄, catalog₄, lists₄⟩ := h₄.catalog_run sep
          cases catalog_run₂.symm.trans catalog₂
          cases epoch_run₁
          -- the check is as good at the commit as it was at the scan
          have unambiguous : l₄.Unambiguous s := unambiguous_again ht₁ h₂ h₄ grows₂
            (grows₃.trans grows₄) epoch₄ (lists₂.checkConflicts_eq_ok_iff.mp conflicts)
          have version := stageActivation_version staged went
          rw [attemptActivate, bind_eq, run_bind_of_ok (Table.Depicts.epoch_run t₄), bind_eq,
            run_bind_of_ok catalog₄, bind_eq, run_done_bind_eq_ok]
          refine ⟨(), lists₄.checkConflicts_eq_ok_iff.mpr unambiguous, ?_⟩
          rw [bind_eq, run_bind_of_ok (load_again sep hs ht₃ grows₄ run₃ version), bind_eq,
            run_done_bind_eq_ok]
          refine ⟨ops, staged, run_transact_done_eq_ok.mpr ⟨rfl, ?_⟩⟩
          exact Table.Commits.expect_iff.mpr ⟨rfl, went⟩

end ScopedConfig.Store
