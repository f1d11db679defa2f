import ScopedConfig.Proofs.Batches
import ScopedConfig.Proofs.Lookups

/-!
# Undisturbed batches

What a mixed batch does to a table if nobody gets in between. Its phases keep what the check ahead
relied on: the write leaves the pointers foreseen, the activations leave all working revisions as they
are (`Ledger.Alike`), so every later check passes again. Hence a batch that the store should run goes
through (`Depicts.execute_run_of_accepts`), and any other changes nothing
(`Depicts.execute_run_of_not_accepts`).
-/

namespace ScopedConfig

open Layout Store

/-- The operation activates or sets in scopes in use only. -/
def Operation.Within (U : Scope → Prop) : Operation → Prop
  | .assign a => ∀ s, scopeOf a.params = .ok s → U s
  | .activate a => ∀ s, scopeOf a.params = .ok s → U s
  | _ => True

instance {U : Scope → Prop} [DecidablePred U] : DecidablePred (Operation.Within U)
  | .assign a => inferInstanceAs (Decidable (∀ s, scopeOf a.params = .ok s → U s))
  | .activate a => inferInstanceAs (Decidable (∀ s, scopeOf a.params = .ok s → U s))
  | .read _ | .list _ => isTrue trivial

/-- The value that the operation sets can be stored. -/
def Operation.Fits : Operation → Prop
  | .assign a => a.value.Fits
  | _ => True

instance : DecidablePred Operation.Fits
  | .assign a => inferInstanceAs (Decidable a.value.Fits)
  | .read _ | .activate _ | .list _ => isTrue trivial

/-- What kind of outcome the operation leads to. -/
def Operation.Yields : Operation → Outcome → Prop
  | .assign _, .written _ | .read _, .value _ | .activate _, .activated _ | .list _, .listed _ => True
  | _, _ => False

variable {U : Scope → Prop} {t t' : Table} {l l' l'' : Ledger} {c : Catalog} {ops : List Operation}
  {op : Operation} {placed : List Placed} {as : List Assignment}

/-! ## Alike ledgers

The relation that holds from one activation of a batch to the next. All that a check asks of a
ledger are the scopes recorded and their working revisions, so alike ledgers pass the same checks
(`Alike.allows`). -/

namespace Ledger

/-- The same scopes are recorded, at the same working revisions. -/
def Alike (l l' : Ledger) : Prop :=
  ∀ s, (l.pointers s).map Pointers.working = (l'.pointers s).map Pointers.working

namespace Alike

theorem refl (l : Ledger) : l.Alike l := fun _ => rfl

theorem trans (h : l.Alike l') (h' : l'.Alike l'') : l.Alike l'' := fun s => (h s).trans (h' s)

theorem of_pointers_eq (h : l.pointers = l'.pointers) : l.Alike l' := fun s => by rw [h]

/-- An activation changes the active revision only. -/
theorem activate {s : Scope} {p : Pointers} (hp : l.pointers s = some p) (n : Revision) :
    l.Alike (l.activate s n) := by
  intro c
  rw [activate_eq hp, pointers_set]
  by_cases same : c = s
  · rw [if_pos same, same, hp]
    rfl
  · rw [if_neg same]

/-- The same scopes are recorded. -/
theorem pointers_ne_none_iff (h : l.Alike l') (s : Scope) :
    l.pointers s ≠ none ↔ l'.pointers s ≠ none := by
  have := h s
  rw [Ne, ← Option.map_eq_none_iff (f := Pointers.working), this, Option.map_eq_none_iff]

theorem unambiguous (h : l.Alike l') {q : Scope} (unambiguous : l.Unambiguous q) :
    l'.Unambiguous q := by
  intro a b ha hb
  exact unambiguous a b ((h.pointers_ne_none_iff a).mpr ha) ((h.pointers_ne_none_iff b).mpr hb)

/-- **What one of them allows, the other one does.** -/
theorem allows (h : l.Alike l') (allowed : l.Allows op) : l'.Allows op := by
  cases op with
  | assign a => trivial
  | activate a =>
      obtain ⟨s, p, n, hs, unambiguous, recorded, rfl, positive, written⟩ := allowed
      have same := h s.canonical
      rw [recorded, Option.map_some, eq_comm, Option.map_eq_some_iff] at same
      -- the other ledger has the scope at the same working revision, perhaps with another one
      -- active
      obtain ⟨p', recorded', working⟩ := same
      exact ⟨s, p', _, hs, h.unambiguous unambiguous, recorded', by rw [working], positive,
        working ▸ written⟩
  | read q =>
      intro active
      obtain ⟨s, hs, unambiguous⟩ := allowed active
      exact ⟨s, hs, h.unambiguous unambiguous⟩
  | list q => trivial

end Alike

end Ledger

/-! ## Phases

`execute_eq` names the phases of a batch, so that each can be followed by itself: a write that the
ledger foresees, activations that keep the ledger alike, and reads that answer. -/

namespace Store

/-- The write of a batch, which is left out if there is nothing to write. -/
def writePhase (policy : RetryPolicy) (ids : Nat → BatchId) (ops : List Operation) :
    Session (List Written) :=
  if (ops.filterMap Operation.assignment?).isEmpty then pure []
  else WriteReceipt.written <$> write policy ids (ops.filterMap Operation.assignment?)

theorem writePhase_run_eq_ok_iff {policy : RetryPolicy} {ids : Nat → BatchId} {ws : List Written} :
    (writePhase policy ids ops).run t = (.ok ws, t') ↔ ∃ r : WriteReceipt,
      (write policy ids (ops.filterMap Operation.assignment?)).run t = (.ok r, t') ∧
        r.written = ws := by
  unfold writePhase
  split
  · next none =>
    rw [List.isEmpty_iff.mp none]
    constructor
    · intro run
      cases run
      exact ⟨⟨ids 0, []⟩, rfl, rfl⟩
    · rintro ⟨r, run, rfl⟩
      cases run
      rfl
  · exact Session.run_map_eq_ok

/-- The activations of a batch. -/
def activatePhase (policy : RetryPolicy) (ops : List Operation) : Session (List Activated) :=
  Session.collect (activate policy) (ops.filterMap Operation.activation?)

/-- The catalog for the reads of a batch, which is loaded again if anything may have changed. -/
def reload (before : Catalog) (ops : List Operation) : Session Catalog :=
  if ops.any Operation.needsCatalog && (!(ops.filterMap Operation.assignment?).isEmpty ||
      !(ops.filterMap Operation.activation?).isEmpty) then catalog
  else pure before

/-- **A batch phase by phase.** -/
theorem execute_eq (settings : Settings) (ids : Nat → BatchId) (ops : List Operation) :
    execute settings ids ops =
      (catalogIf (ops.any Operation.needsCatalog)).bind fun before =>
      (Session.done (preflight before ops)).bind fun _ =>
      (writePhase settings.retryPolicy ids ops).bind fun written =>
      (activatePhase settings.retryPolicy ops).bind fun activated =>
      (reload before ops).bind fun current =>
      (Session.collect (answer settings.fallback current) ops).bind fun answers =>
      .done (.ok (arrange ops written activated answers)) := by
  have branch {α β : Type} (b : Bool) (x y : Session α) (f : α → Session β) :
      (if b then x.bind f else y.bind f) = (if b then x else y : Session α).bind f := by
    cases b <;> rfl
  unfold execute writePhase activatePhase reload
  simp only [Session.bind_eq, Session.pure_eq, branch]

end Store

namespace Table.Depicts

/-- **A write of assignments that can be placed goes through.** -/
theorem write_run (sep : Scope.Separated U) (h : t.Depicts U l) (orderly : l.Orderly)
    (policy : RetryPolicy) (ids : Nat → BatchId)
    (used : ∀ a ∈ as, (Operation.assign a).Within U) (places : place as = .ok placed) :
    ∃ t', (write policy ids as).run t = (.ok (l.receipt (ids 0) placed), t') ∧
      t'.Depicts U (l.write (ids 0) placed) := by
  have within : (Call.write policy ids as).Within U := used
  have placeable := Call.placeable within places
  -- An empty write puts nothing and makes no attempt.
  cases placed with
  | nil =>
      refine ⟨t, ?_, h⟩
      rw [write, places]
      rfl
  | cons p placed =>
      have attempt : ∃ t', (attemptWrite (p :: placed) (ids 0)).run t =
          (.ok (l.receipt (ids 0) (p :: placed)), t') ∧ t'.Depicts U (l.write (ids 0) (p :: placed)) :=
        h.attemptWrite_run sep placeable fun p _ => orderly.entries_next _ _
      obtain ⟨t', run, depicts⟩ := attempt
      refine ⟨t', ?_, depicts⟩
      rw [write, places]
      exact Session.run_optimistic_of_ok run

/-- **An activation that the pointers allow goes through**, and leaves a ledger alike. -/
theorem activate_run (sep : Scope.Separated U) (h : t.Depicts U l) (policy : RetryPolicy)
    {a : Activation}
    (used : (Operation.activate a).Within U) (allowed : l.Allows (.activate a)) :
    ∃ r t' l', (activate policy a).run t = (.ok r, t') ∧ t'.Depicts U l' ∧ l.Alike l' ∧
      l'.entries = l.entries := by
  obtain ⟨s, p, n, hs, activates⟩ := allowed
  refine ⟨⟨s.canonical, n, p.active⟩, activated t s p n, l.activate s.canonical n, ?_,
    h.depicts_activated sep (used s hs) activates.recorded n, .activate activates.recorded n, ?_⟩
  · rw [activate, hs]
    exact Session.run_optimistic_of_ok
      ((h.attemptActivate_run_eq_ok_iff sep (used s hs)).mpr ⟨p, n, activates, rfl, rfl⟩)
  · rw [Ledger.activate_eq activates.recorded]
    rfl

/-- **Activations that the pointers allow go through, one after another.** -/
theorem collect_activate_run (sep : Scope.Separated U) (h : t.Depicts U l) (policy : RetryPolicy)
    {as : List Activation} (used : ∀ a ∈ as, (Operation.activate a).Within U)
    (allowed : ∀ a ∈ as, l.Allows (.activate a)) :
    ∃ rs t' l', (Session.collect (activate policy) as).run t = (.ok rs, t') ∧ t'.Depicts U l' ∧
      l.Alike l' ∧ l'.entries = l.entries := by
  induction as generalizing t l with
  | nil => exact ⟨[], t, l, rfl, h, .refl l, rfl⟩
  | cons a as ih =>
      obtain ⟨hused, used⟩ := List.forall_mem_cons.mp used
      obtain ⟨hallowed, allowed⟩ := List.forall_mem_cons.mp allowed
      obtain ⟨r, t₁, l₁, first, depicts₁, alike₁, entries₁⟩ := h.activate_run sep policy hused hallowed
      obtain ⟨rs, t₂, l₂, rest, depicts₂, alike₂, entries₂⟩ :=
        ih depicts₁ used fun a ha => alike₁.allows (allowed a ha)
      refine ⟨r :: rs, t₂, l₂, ?_, depicts₂, alike₁.trans alike₂, entries₂.trans entries₁⟩
      rw [Session.collect, Session.bind_eq, Session.run_bind_of_ok first, Session.bind_eq,
        Session.run_bind_of_ok rest]
      rfl

/-- The catalog, if it is loaded at all, lists the ledger. -/
theorem catalogIf_run (sep : Scope.Separated U) (h : t.Depicts U l) (needed : Bool) :
    ∃ c, (catalogIf needed).run t = (.ok c, t) ∧ (needed = true → c.Lists l) := by
  cases needed with
  | false => exact ⟨⟨[]⟩, rfl, nofun⟩
  | true =>
      obtain ⟨c, run, lists⟩ := h.catalog_run sep
      exact ⟨c, run, fun _ => lists⟩

/-- **A read that is allowed answers.** -/
theorem answer_answers (sep : Scope.Separated U) (h : t.Depicts U l) (storable : l.Storable)
    (fallback : Fallback) (valid : op.Valid)
    (passes : op.needsCatalog = true → ∃ l', c.Lists l' ∧ l'.Allows op) :
    (Store.answer fallback c op).Answers t := by
  apply Session.Answers.composable.answer (h.load_answers sep) (h.entryAsOf_answers storable)
  intro e _ refused
  cases refused.symm.trans (check_eq_ok_of_allows valid passes)

/-! ## Whole batches

The two halves of the equivalence. A batch that should run gets through every phase, and one that
should not is stopped in the check ahead or by its own assignments, before anything is put. -/

/-- The check ahead, on the catalog that the batch has loaded. -/
theorem accepts_iff_of_catalogIf (sep : Scope.Separated U) (h : t.Depicts U l)
    (lists : ops.any Operation.needsCatalog = true → c.Lists l) :
    l.Accepts ops ↔ preflight c ops = .ok () ∧
      ∃ placed, place (ops.filterMap Operation.assignment?) = .ok placed := by
  cases needed : ops.any Operation.needsCatalog with
  | true => exact accepts_iff (lists needed)
  | false =>
      obtain ⟨c', -, lists⟩ := h.catalog_run sep
      rw [accepts_iff lists, preflight_of_needsCatalog_eq_false needed c' c]

/-- **A batch that the store should run goes through.** -/
theorem execute_run_of_accepts (sep : Scope.Separated U) (h : t.Depicts U l)
    (coherent : l.Coherent) (roomy : l.Roomy) (used : ∀ op ∈ ops, op.Within U)
    (fits : ∀ op ∈ ops, op.Fits) (settings : Settings) (ids : Nat → BatchId)
    (accepts : l.Accepts ops) :
    ∃ outcomes t', (execute settings ids ops).run t = (.ok outcomes, t') := by
  obtain ⟨before, load, lists⟩ := h.catalogIf_run sep (ops.any Operation.needsCatalog)
  obtain ⟨passes, placed, places⟩ := (h.accepts_iff_of_catalogIf sep lists).mp accepts
  have located := (place_eq_ok_iff_located.mp places).1
  -- the write leaves the pointers foreseen, and only values that can be stored
  obtain ⟨t₁, write, depicts₁⟩ := h.write_run sep coherent.orderly settings.retryPolicy ids
    (fun a ha => used _ (Operation.mem_filterMap_assignment?.mp ha)) places
  obtain ⟨ws, written⟩ : ∃ ws, (writePhase settings.retryPolicy ids ops).run t = (.ok ws, t₁) :=
    ⟨_, writePhase_run_eq_ok_iff.mpr ⟨_, write, rfl⟩⟩
  have alike₁ : (l.ahead ops).Alike (l.write (ids 0) placed) :=
    .of_pointers_eq (located.pointers_write_eq_ahead (ids 0)).symm
  have coherent₁ : (l.write (ids 0) placed).Coherent := by
    refine coherent.write roomy fun p hp => fits _ (Operation.mem_filterMap_assignment?.mp ?_)
    rw [← located.assignments]
    exact List.mem_map_of_mem hp
  -- the activations leave the working revisions, and all values
  have activations : ∀ a ∈ ops.filterMap Operation.activation?, .activate a ∈ ops :=
    fun a => Operation.mem_filterMap_activation?.mp
  obtain ⟨rs, t₂, l₂, activated, depicts₂, alike₂, entries₂⟩ :=
    depicts₁.collect_activate_run sep settings.retryPolicy
      (fun a ha => used _ (activations a ha))
      (fun a ha => alike₁.allows (accepts.allowed _ (activations a ha)))
  have activated : (activatePhase settings.retryPolicy ops).run t₁ = (.ok rs, t₂) := activated
  have storable₂ : l₂.Storable := by
    intro name s n e he
    rw [entries₂] at he
    exact coherent₁.fits name s n e he
  -- the catalog that the reads use lists a ledger alike
  have current : ∃ c, (reload before ops).run t₂ = (.ok c, t₂) ∧
      (ops.any Operation.needsCatalog = true → ∃ l', c.Lists l' ∧ (l.ahead ops).Alike l') := by
    unfold reload
    split
    · obtain ⟨c, run, lists⟩ := depicts₂.catalog_run sep
      exact ⟨c, run, fun _ => ⟨l₂, lists, alike₁.trans alike₂⟩⟩
    · next unchanged =>
      refine ⟨before, rfl, fun needed => ⟨l, lists needed, ?_⟩⟩
      rw [needed, Bool.true_and, Bool.or_eq_true, not_or, Bool.not_eq_true', Bool.not_eq_false,
        List.isEmpty_iff] at unchanged
      rw [unchanged.1] at places
      cases places
      exact alike₁
  obtain ⟨c, reloaded, lists₂⟩ := current
  have answers : (Session.collect (Store.answer settings.fallback c) ops).Answers t₂ := by
    refine Session.Answers.composable.collect fun op hop => depicts₂.answer_answers sep storable₂ _ (accepts.valid op hop) ?_
    intro needed
    obtain ⟨l', lists, alike⟩ := lists₂ (List.any_eq_true.mpr ⟨op, hop, needed⟩)
    exact ⟨l', lists, alike.allows (accepts.allowed op hop)⟩
  obtain ⟨os, answered⟩ := answers
  refine ⟨arrange ops ws rs os, t₂, ?_⟩
  rw [execute_eq, Session.run_bind_of_ok load, passes, Session.bind, Session.run_bind_of_ok written,
    Session.run_bind_of_ok activated, Session.run_bind_of_ok reloaded,
    Session.run_bind_of_ok answered]
  rfl

/-- **Any other batch changes nothing.** -/
theorem execute_run_of_not_accepts (sep : Scope.Separated U) (h : t.Depicts U l)
    (settings : Settings) (ids : Nat → BatchId) (refused : ¬ l.Accepts ops) :
    ∃ e, (execute settings ids ops).run t = (.error e, t) := by
  obtain ⟨before, load, lists⟩ := h.catalogIf_run sep (ops.any Operation.needsCatalog)
  rw [h.accepts_iff_of_catalogIf sep lists] at refused
  rw [execute_eq, Session.run_bind_of_ok load]
  cases passes : preflight before ops with
  | error e => exact ⟨e, rfl⟩
  | ok u =>
      cases places : place (ops.filterMap Operation.assignment?) with
      | ok placed => exact absurd ⟨passes, placed, places⟩ refused
      | error e =>
          refine ⟨e, ?_⟩
          -- the write is refused before it asks for anything
          show ((writePhase settings.retryPolicy ids ops).bind _).run t = _
          refine Session.run_bind_of_error ?_
          unfold writePhase
          cases as : ops.filterMap Operation.assignment? with
          | nil => rw [as] at places; cases places
          | cons a as =>
              rw [as] at places
              rw [write, places]
              rfl

end Table.Depicts

/-! ## Batches on tables that calls lead to

Such a table depicts a coherent ledger with room for another revision, which is what the section
above asked of it. -/

namespace System

variable {ι : Type} [DecidableEq ι]

/-- **A mixed batch goes through just if its checks pass ahead, and otherwise changes nothing.** -/
theorem execute_all_or_nothing (sep : Scope.Separated U) (moves : List (Move ι))
    (within : ∀ h c, .call h c ∈ moves → c.Within U) (fits : ∀ h c, .call h c ∈ moves → c.Fits)
    (roomy : ∀ k ∈ (run moves).log, k.before.Roomy) (room : (run moves).table.Roomy)
    (settings : Settings) (ids : Nat → BatchId) (ops : List Operation)
    (used : ∀ op ∈ ops, op.Within U) (fit : ∀ op ∈ ops, op.Fits) :
    ∃ records l,
      Store.records.run (run moves).table = (.ok records, (run moves).table) ∧
      Catalog.Lists ⟨records⟩ l ∧
      ((∃ outcomes t', (execute settings ids ops).run (run moves).table = (.ok outcomes, t')) ↔
        l.Accepts ops) ∧
      ∀ e t', (execute settings ids ops).run (run moves).table = (.error e, t') →
        t' = (run moves).table := by
  obtain ⟨replies, l, traced⟩ := run_traced sep moves within
  have depicts := traced.trace.depicts
  have coherent := traced.trace.coherent sep (run_each moves fits).2 roomy
  obtain ⟨c, catalog, lists⟩ := depicts.catalog_run sep
  obtain ⟨records, loaded, rfl⟩ := Session.run_map_eq_ok.mp catalog
  refine ⟨records, l, loaded, lists, ?_⟩
  by_cases accepts : l.Accepts ops
  · obtain ⟨outcomes, t', run⟩ := depicts.execute_run_of_accepts sep coherent
      (depicts.roomy sep room) used fit settings ids accepts
    refine ⟨⟨fun _ => accepts, fun _ => ⟨outcomes, t', run⟩⟩, fun e t'' failed => ?_⟩
    cases run.symm.trans failed
  · obtain ⟨e, run⟩ := depicts.execute_run_of_not_accepts sep settings ids accepts
    refine ⟨⟨fun ⟨outcomes, t', ok⟩ => ?_, fun h => absurd h accepts⟩, fun e' t' failed => ?_⟩
    · cases run.symm.trans ok
    · cases run.symm.trans failed
      rfl

/-- A batch that activates and reads what only its own assignment makes. -/
def mixed : List Operation :=
  [.read ⟨"limit", [], none⟩, .activate ⟨[], some 3⟩, .assign ⟨"limit", .integer 3, []⟩]

theorem mixed_within : ∀ op ∈ mixed, op.Within Scope.Sample ∧ op.Fits := by decide +kernel

theorem race_accepts_mixed :
    ∃ records l, Store.records.run (run race).table = (.ok records, (run race).table) ∧
      Catalog.Lists ⟨records⟩ l ∧ l.Accepts mixed := by
  obtain ⟨roomy, room⟩ := run_roomy Scope.separated_sample race race_within (by decide +kernel)
  obtain ⟨records, l, loaded, lists, ok, -⟩ := execute_all_or_nothing Scope.separated_sample race
    race_within (fun h c hc => (race_writes h c hc).1) roomy room {} (.stamped 1) mixed
    (fun op hop => (mixed_within op hop).1) (fun op hop => (mixed_within op hop).2)
  refine ⟨records, l, loaded, lists, ok.mp ?_⟩
  have goes : ((execute {} (.stamped 1) mixed).run (run race).table).1.isOk := by decide +kernel
  cases run : (execute {} (.stamped 1) mixed).run (System.run race).table with
  | mk result t' =>
      cases result with
      | ok outcomes => exact ⟨outcomes, t', rfl⟩
      | error e => rw [run] at goes; cases goes

end System

end ScopedConfig
