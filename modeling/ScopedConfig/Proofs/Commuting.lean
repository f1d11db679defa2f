import ScopedConfig.Proofs.Contention
import ScopedConfig.Proofs.KeyLayout
import ScopedConfig.Proofs.Undisturbed

/-!
# Calls that commute

Two calls that have no scope in common may come in either order. What a call answers and what it puts
(`Ledger.Grants`) depends on the scopes that it names, and for an activation also on which scopes there
are (`Grants.congr`); a call leaves the other scopes as they were, and makes no new ones if it finds
its own recorded (`Call.exists_agreesFor`). So each of the two answers and puts the same before and
after the other, and their puts meet at most in the epoch, where both put the same value
(`Grants.agree_on_keys`).
-/

namespace ScopedConfig

open Layout Store

variable {U : Scope → Prop} {t t' : Table} {l l' : Ledger} {s : Scope} {c c' : Call} {r r' : Reply}
  {ps ps' : List (String × Bytes)} {placed : List Placed} {batch : BatchId}

/-! ## The keys of a scope

A record and an entry are about a scope, the epoch is about none. The layout of the keys tells which
scope it is, so two scopes that differ have no key in common. -/

namespace Layout

/-- The scope that a place is about. -/
def Place.scope? : Place → Option ScopeId
  | .record i | .entry _ i _ => some i
  | .epoch => none

/-- The key is that of the record or of an entry of the scope. -/
def Belongs (key : String) (s : Scope) : Prop := ∃ a : Place, a.scope? = some s.id ∧ a.key = key

/-- The epoch belongs to no scope. -/
theorem Belongs.ne_epochKey {key : String} (h : Belongs key s) : key ≠ epochKey := by
  obtain ⟨a, scope, rfl⟩ := h
  intro same
  have epoch : a = .epoch := Place.key_inj.mp same
  rw [epoch] at scope
  cases scope

end Layout

/-- A key belongs to one scope only. -/
theorem Scope.Separated.canonical_eq_of_belongs (sep : Scope.Separated U) {q : Scope} (hs : U s)
    (hq : U q) {key : String} (h : Belongs key s) (h' : Belongs key q) :
    s.canonical = q.canonical := by
  obtain ⟨a, scope, rfl⟩ := h
  obtain ⟨b, scope', same⟩ := h'
  rw [Place.key_inj.mp same, scope, Option.some.injEq] at scope'
  exact (sep.id_eq_iff hs hq).mp scope'

/-! ## The scopes that a call names

That no scope is named by both calls is enough for two batches and for two activations. A batch may
record a scope for the first time, and an activation looks at all scopes there are, so for these two
the scopes of the batch have to be recorded already (`Call.Unrelated`). -/

namespace Call

/-- The call takes new revisions, and so may record a scope for the first time. -/
def advances : Call → Bool
  | write .. | advance .. => true
  | activate .. | setActive .. => false

/-- The call finds all scopes that it advances in the table. -/
def FindsScopes (c : Call) (t : Table) : Prop :=
  c.advances → ∀ s, c.Names s → t.get? (recordKey s.id) ≠ none

/-- The calls have no scope in common, and neither of them records a scope if the other one is an
activation: an activation looks at all scopes there are. -/
structure Unrelated (c : Call) (t : Table) (c' : Call) : Prop where
  apart : ∀ s, ¬ (c.Names s ∧ c'.Names s)
  finds : c'.activation?.isSome → c.FindsScopes t
  finds' : c.activation?.isSome → c'.FindsScopes t

/-- Whatever the spelling. -/
theorem Names.of_canonical_eq {q : Scope} (h : c.Names s) (same : s.canonical = q.canonical) :
    c.Names q := by
  cases c with
  | write policy ids assignments =>
      obtain ⟨a, ha, r, hr, canonical⟩ := h
      exact ⟨a, ha, r, hr, canonical.trans same⟩
  | activate policy a =>
      obtain ⟨r, hr, canonical⟩ := h
      exact ⟨r, hr, canonical.trans same⟩
  | advance policy r => exact Eq.trans h same
  | setActive policy r n => exact Eq.trans h same

/-- The scopes named are in use. -/
theorem Within.exists_of_names (within : c.Within U) (h : c.Names s) :
    ∃ r, U r ∧ r.canonical = s.canonical := by
  cases c with
  | write policy ids assignments =>
      obtain ⟨a, ha, r, hr, canonical⟩ := h
      exact ⟨r, within a ha r hr, canonical⟩
  | activate policy a =>
      obtain ⟨r, hr, canonical⟩ := h
      exact ⟨r, within r hr, canonical⟩
  | advance policy r => exact ⟨r, within, h⟩
  | setActive policy r n => exact ⟨r, within, h⟩

/-- A batch names the scopes where its assignments were placed. -/
theorem names_of_mem_placed {policy : RetryPolicy} {ids : Nat → BatchId} {as : List Assignment}
    (places : place as = .ok placed) {p : Placed} (hp : p ∈ placed)
    (canonical : p.scope.canonical = s.canonical) : (write policy ids as).Names s := by
  obtain ⟨rfl, scopes, -⟩ := place_eq_ok_iff.mp places
  exact ⟨p.assignment, List.mem_map_of_mem hp, p.scope, scopes p hp, canonical⟩

/-- Two batches. -/
theorem unrelated_writes {policy policy' : RetryPolicy} {ids ids' : Nat → BatchId}
    {as as' : List Assignment}
    (apart : ∀ s, ¬ ((write policy ids as).Names s ∧ (write policy' ids' as').Names s)) :
    (write policy ids as).Unrelated t (write policy' ids' as') := by
  refine ⟨apart, ?_, ?_⟩ <;>
  · intro activation
    cases activation

/-- Two activations. -/
theorem unrelated_activations {policy policy' : RetryPolicy} {a a' : Activation}
    (apart : ∀ s, ¬ ((activate policy a).Names s ∧ (activate policy' a').Names s)) :
    (activate policy a).Unrelated t (activate policy' a') := by
  refine ⟨apart, ?_, ?_⟩ <;>
  · intro _ advances
    cases advances

/-- A batch and an activation. -/
theorem unrelated_write_activation {policy policy' : RetryPolicy} {ids : Nat → BatchId}
    {as : List Assignment} {a : Activation}
    (apart : ∀ s, ¬ ((write policy ids as).Names s ∧ (activate policy' a).Names s))
    (recorded : ∀ s, (write policy ids as).Names s → t.get? (recordKey s.id) ≠ none) :
    (write policy ids as).Unrelated t (activate policy' a) ∧
      (activate policy' a).Unrelated t (write policy ids as) := by
  refine ⟨⟨apart, fun _ _ => recorded, ?_⟩, fun s both => apart s both.symm, ?_, fun _ _ => recorded⟩ <;>
  · intro activation
    cases activation

end Call

/-! ## What a call depends on

`Ledger.Grants` has the reply of an undisturbed call and the rows that it puts, both as the ledger
has them. All that it mentions are the pointers of the scopes that the call names, the entries at
their next revisions and, for an activation, which scopes are recorded. -/

namespace Ledger

/-- The ledgers are one as far as the call goes: they agree on the scopes that it names and, if it is
an activation, on which scopes there are. -/
structure AgreesFor (l : Ledger) (c : Call) (l' : Ledger) : Prop where
  pointers : ∀ s, c.Names s → l'.pointers s.canonical = l.pointers s.canonical
  entries : ∀ s, c.Names s → ∀ name n, l'.entries name s.canonical n = l.entries name s.canonical n
  recorded : c.activation?.isSome → ∀ s, l'.pointers s ≠ none ↔ l.pointers s ≠ none

theorem AgreesFor.symm (h : l.AgreesFor c l') : l'.AgreesFor c l where
  pointers s hs := (h.pointers s hs).symm
  entries s hs name n := (h.entries s hs name n).symm
  recorded activation s := (h.recorded activation s).symm

/-- What a call that nobody gets in the way of answers, and what it puts. -/
def Grants (l : Ledger) : Call → Reply → List (String × Bytes) → Prop
  | .write _ ids as, .written r, puts => ∃ placed, place as = .ok placed ∧
      (∀ p ∈ placed, l.entries p.assignment.name p.scope.canonical (l.next p.scope.canonical) = none) ∧
      r = l.receipt (ids 0) placed ∧ puts = l.puts (ids 0) placed
  | .activate _ a, .activated r, puts => ∃ s p n, scopeOf a.params = .ok s ∧
      l.Activates s a.revision p n ∧ r = ⟨s.canonical, n, p.active⟩ ∧
      puts = [(recordKey s.id, (Pointers.record ⟨p.working, some n⟩ s.canonical).pack)]
  | .advance _ s, .advanced n, puts => n = l.next s.canonical ∧ puts = l.advancePuts s.canonical
  | .setActive _ s n, .set, puts => ∃ p, l.pointers s.canonical = some p ∧ n ≠ 0 ∧ n ≤ p.working ∧
      puts = [(recordKey s.id, (Pointers.record ⟨p.working, some n⟩ s.canonical).pack)]
  | _, _, _ => False

theorem Grants.answeredBy (h : l.Grants c r ps) : c.AnsweredBy r := by
  cases c <;> cases r <;> first | constructor | exact False.elim h

section Congruence

theorem next_congr (same : l'.pointers s = l.pointers s) : l'.next s = l.next s := by
  rw [next, next, same]

theorem advancePuts_congr (same : l'.pointers s.canonical = l.pointers s.canonical) :
    l'.advancePuts s.canonical = l.advancePuts s.canonical := by
  have record : l'.record s = l.record s := by rw [Ledger.record, Ledger.record, same]
  rw [advancePuts, advancePuts, record_canonical, record_canonical, record, same]

/-- What a write puts is told by the pointers of the scopes that it names. -/
theorem puts_congr (same : ∀ p ∈ placed, l'.pointers p.scope.canonical = l.pointers p.scope.canonical) :
    l'.puts batch placed = l.puts batch placed := by
  refine congrArg₂ (· ++ ·) (List.flatMap_congr fun c hc => ?_) (List.map_congr_left fun p hp => ?_)
  · obtain ⟨s, hs, rfl⟩ := List.mem_map.mp hc
    obtain ⟨p, hp, rfl⟩ := List.mem_map.mp (Scope.mem_distinct hs)
    exact advancePuts_congr (same p hp)
  · rw [entryPut, entryPut, next_congr (same p hp)]

theorem receipt_congr
    (same : ∀ p ∈ placed, l'.pointers p.scope.canonical = l.pointers p.scope.canonical) :
    l'.receipt batch placed = l.receipt batch placed := by
  rw [receipt, receipt, WriteReceipt.mk.injEq]
  refine ⟨rfl, List.map_congr_left fun p hp => ?_⟩
  rw [next_congr (same p hp)]

theorem Activates.congr {revision : Option Revision} {p : Pointers} {n : Revision}
    (h : l.Activates s revision p n) (same : l'.pointers s.canonical = l.pointers s.canonical)
    (recorded : ∀ s, l'.pointers s ≠ none ↔ l.pointers s ≠ none) : l'.Activates s revision p n where
  unambiguous a b ha hb := h.unambiguous a b ((recorded a).mp ha) ((recorded b).mp hb)
  recorded := same.trans h.recorded
  revision := h.revision
  positive := h.positive
  written := h.written

/-- **A call is granted the same by ledgers that agree for it.** -/
theorem Grants.congr (h : l.Grants c r ps) (agrees : l.AgreesFor c l') : l'.Grants c r ps := by
  cases h.answeredBy with
  | write policy ids as r =>
      obtain ⟨placed, places, fresh, rfl, rfl⟩ := h
      have names : ∀ p ∈ placed, (Call.write policy ids as).Names p.scope :=
        fun p hp => Call.names_of_mem_placed places hp rfl
      have same := fun p hp => agrees.pointers p.scope (names p hp)
      refine ⟨placed, places, fun p hp => ?_, (receipt_congr same).symm, (puts_congr same).symm⟩
      rw [next_congr (same p hp), agrees.entries p.scope (names p hp)]
      exact fresh p hp
  | activate policy a r =>
      obtain ⟨s, p, n, hs, activates, rfl, rfl⟩ := h
      exact ⟨s, p, n, hs,
        activates.congr (agrees.pointers s ⟨s, hs, rfl⟩) (agrees.recorded rfl), rfl, rfl⟩
  | advance policy s n =>
      obtain ⟨rfl, rfl⟩ := h
      have same := agrees.pointers s rfl
      exact ⟨(next_congr same).symm, (advancePuts_congr same).symm⟩
  | setActive policy s n =>
      obtain ⟨p, recorded, rest⟩ := h
      exact ⟨p, (agrees.pointers s rfl).trans recorded, rest⟩

end Congruence

/-! ## What a call leaves alone

The other half of the matter: the ledger after a call agrees with the one before it on every scope
that the call does not name. -/

section Frame

/-- **A call does nothing to scopes that it does not name.** -/
theorem Serves.frame (h : l.Serves c r l') (unnamed : ¬ c.Names s) :
    l'.pointers s.canonical = l.pointers s.canonical ∧
      ∀ name n, l'.entries name s.canonical n = l.entries name s.canonical n := by
  cases h.answeredBy with
  | write policy ids as r =>
      obtain ⟨placed, k, places, -, rfl⟩ := h
      have others : ∀ p ∈ placed, p.scope.canonical ≠ s.canonical :=
        fun p hp canonical => unnamed (Call.names_of_mem_placed places hp canonical)
      constructor
      · rw [pointers_write, if_neg (by simpa using others)]
      · intro name n
        have none : placed.find? (fun p => p.assignment.name = name &&
            p.scope.canonical = s.canonical) = none := by
          simpa using fun p hp _ => others p hp
        rw [write]
        simp only [none]
  | activate policy a r =>
      obtain ⟨q, p, n, hq, activates, -, rfl⟩ := h
      rw [activate_eq activates.recorded, pointers_set,
        if_neg fun eq => unnamed ⟨q, hq, eq.symm⟩]
      exact ⟨rfl, fun _ _ => rfl⟩
  | advance policy q n =>
      obtain ⟨-, rfl⟩ := h
      rw [pointers_advance, if_neg fun eq => unnamed eq.symm]
      exact ⟨rfl, fun _ _ => rfl⟩
  | setActive policy q n =>
      obtain ⟨p, recorded, -, -, rfl⟩ := h
      rw [activate_eq recorded, pointers_set, if_neg fun eq => unnamed eq.symm]
      exact ⟨rfl, fun _ _ => rfl⟩

/-- **A call that finds its scopes makes no new ones.** -/
theorem Serves.recorded_iff (h : l.Serves c r l')
    (finds : c.advances → ∀ s, c.Names s → l.pointers s.canonical ≠ none) (s : Scope) :
    l'.pointers s ≠ none ↔ l.pointers s ≠ none := by
  cases h.answeredBy with
  | write policy ids as r =>
      obtain ⟨placed, k, places, -, rfl⟩ := h
      rw [pointers_write]
      split
      · next named =>
        obtain ⟨p, hp, eq⟩ := List.any_eq_true.mp named
        -- the batch names the scope, and had found it recorded
        have known := finds rfl p.scope (Call.names_of_mem_placed places hp rfl)
        rw [of_decide_eq_true eq] at known
        simp [known]
      · rfl
  | activate policy a r =>
      obtain ⟨q, p, n, hq, activates, -, rfl⟩ := h
      rw [activate_eq activates.recorded, pointers_set]
      split
      · next eq => simp [eq, activates.recorded]
      · rfl
  | advance policy q n =>
      obtain ⟨-, rfl⟩ := h
      rw [pointers_advance]
      split
      · next eq =>
        have known := finds rfl q rfl
        rw [← eq] at known
        simp [known]
      · rfl
  | setActive policy q n =>
      obtain ⟨p, recorded, -, -, rfl⟩ := h
      rw [activate_eq recorded, pointers_set]
      split
      · next eq => simp [eq, recorded]
      · rfl

end Frame

/-! ## Where calls meet

Two calls can put something under one key only if it is the key of the epoch, for any other key
belongs to a scope that both would have to name. The epoch is put with the empty value by everybody.
-/

/-- A call puts records and entries of scopes that it names, and the epoch. -/
theorem Grants.of_mem_puts (h : l.Grants c r ps) (within : c.Within U) {put : String × Bytes}
    (mem : put ∈ ps) : (∃ s, U s ∧ c.Names s ∧ Belongs put.1 s) ∨ put = (epochKey, []) := by
  -- Two of the calls advance scopes: there the puts are the record and, for a new scope, the epoch.
  have advance {s : Scope} (hs : U s) (names : c.Names s) (mem : put ∈ l.advancePuts s.canonical) :
      (∃ s, U s ∧ c.Names s ∧ Belongs put.1 s) ∨ put = (epochKey, []) := by
    rcases List.mem_cons.mp mem with rfl | mem
    · exact .inl ⟨s, hs, names, .record s.id, rfl, congrArg recordKey (Scope.id_canonical s).symm⟩
    · split at mem
      · cases mem
      · exact .inr (List.mem_singleton.mp mem)
  cases h.answeredBy with
  | write policy ids as r =>
      obtain ⟨placed, places, -, -, rfl⟩ := h
      have placeable := Call.placeable within places
      have names : ∀ p ∈ placed, (Call.write policy ids as).Names p.scope :=
        fun p hp => Call.names_of_mem_placed places hp rfl
      rcases List.mem_append.mp mem with mem | mem
      · obtain ⟨_, canonical, mem⟩ := List.mem_flatMap.mp mem
        obtain ⟨q, hq, rfl⟩ := List.mem_map.mp canonical
        obtain ⟨p, hp, rfl⟩ := List.mem_map.mp (Scope.mem_distinct hq)
        exact advance (placeable.used p hp) (names p hp) mem
      · obtain ⟨p, hp, rfl⟩ := List.mem_map.mp mem
        exact .inl ⟨p.scope, placeable.used p hp, names p hp, .entry _ _ _, rfl, rfl⟩
  | activate policy a r =>
      obtain ⟨s, p, n, hs, -, -, rfl⟩ := h
      rw [List.mem_singleton.mp mem]
      exact .inl ⟨s, within s hs, ⟨s, hs, rfl⟩, .record s.id, rfl, rfl⟩
  | advance policy s n =>
      obtain ⟨-, rfl⟩ := h
      exact advance within rfl mem
  | setActive policy s n =>
      obtain ⟨p, -, -, -, rfl⟩ := h
      rw [List.mem_singleton.mp mem]
      exact .inl ⟨s, within, rfl, .record s.id, rfl, rfl⟩

/-- **Calls without a common scope put nothing different under one key.** -/
theorem Grants.agree_on_keys (sep : Scope.Separated U) (h : l.Grants c r ps)
    (h' : l'.Grants c' r' ps') (within : c.Within U) (within' : c'.Within U)
    (apart : ∀ s, ¬ (c.Names s ∧ c'.Names s)) :
    ∀ p ∈ ps, ∀ q ∈ ps', p.1 = q.1 → p.2 = q.2 := by
  intro p hp q hq same
  rcases h.of_mem_puts within hp with ⟨s, hs, names, key⟩ | rfl <;>
    rcases h'.of_mem_puts within' hq with ⟨s', hs', names', key'⟩ | rfl
  · -- the key would belong to a scope of each
    have canonical := sep.canonical_eq_of_belongs hs hs' (same ▸ key) key'
    exact absurd ⟨names, names'.of_canonical_eq canonical.symm⟩ (apart s)
  · exact absurd same key.ne_epochKey
  · exact absurd same.symm key'.ne_epochKey
  · rfl

end Ledger

/-! ## Undisturbed calls

For each of the four calls what it does undisturbed is put into the form of `Ledger.Grants`: an
answer and a list of puts that the ledger tells. `session_run_eq_ok_iff` has them all. -/

namespace Table.Depicts

/-- An undisturbed advance. -/
theorem attemptAdvance_run_eq_ok_iff (sep : Scope.Separated U) (h : t.Depicts U l) (hs : U s)
    {n : Revision} :
    (attemptAdvance s).run t = (.ok n, t') ↔
      n = l.next s.canonical ∧ t' = t.putAll (l.advancePuts s.canonical) := by
  -- it always goes through, so it is enough to see where it leads
  obtain ⟨t'', run, -⟩ := h.attemptAdvance_run sep hs
  have after : t'' = t.putAll (l.advancePuts s.canonical) := by
    have committed := run
    rw [attemptAdvance, Session.bind_eq, Session.run_bind_of_ok (h.load_run sep hs)] at committed
    rw [← h.filterMap_put?_stageAdvance hs]
    exact (Session.run_transact_done_eq_ok.mp committed).2.eq_putAll
  rw [run, Prod.mk.injEq, Except.ok.injEq, after]
  exact ⟨fun eq => ⟨eq.1.symm, eq.2.symm⟩, fun eq => ⟨eq.1.symm, eq.2.symm⟩⟩

/-- What an undisturbed write does. -/
theorem write_run_eq_ok_iff_puts (sep : Scope.Separated U) (h : t.Depicts U l) {policy : RetryPolicy}
    {ids : Nat → BatchId} {as : List Assignment} (within : (Call.write policy ids as).Within U)
    {r : WriteReceipt} :
    (write policy ids as).run t = (.ok r, t') ↔
      ∃ ps, l.Grants (.write policy ids as) (.written r) ps ∧ t' = t.putAll ps := by
  rw [h.write_run_eq_ok_iff sep within]
  constructor
  · rintro ⟨placed, places, rfl, commits⟩
    have placeable := Call.placeable within places
    refine ⟨_, ⟨placed, places, h.fresh_of_commits sep placeable commits, rfl, rfl⟩, ?_⟩
    rw [← h.filterMap_put?_staged sep placeable]
    exact commits.eq_putAll
  · rintro ⟨_, ⟨placed, places, fresh, rfl, rfl⟩, rfl⟩
    have placeable := Call.placeable within places
    obtain ⟨t'', commits⟩ := h.exists_stageBatch sep placeable (ids 0) fresh
    have after := commits.eq_putAll
    rw [h.filterMap_put?_staged sep placeable] at after
    exact ⟨placed, places, rfl, after ▸ commits⟩

/-- What an undisturbed setting of the active revision does. -/
theorem setActive_run_eq_ok_iff (sep : Scope.Separated U) (h : t.Depicts U l) {policy : RetryPolicy}
    (hs : U s) {n : Revision} :
    (setActive policy s n).run t = (.ok (), t') ↔ (attemptSetActive s n).run t = (.ok (), t') := by
  constructor
  · intro run
    have session : (Call.setActive policy s n).session.run t = (.ok .set, t') :=
      Session.run_map_eq_ok.mpr ⟨(), run, rfl⟩
    rcases (Call.isolated_session sep (c := .setActive policy s n) hs ⟨l, h⟩).of_run_eq_ok ⟨l, h⟩
      session with ⟨-, does⟩ | ⟨idle, -⟩
    · exact does
    · exact idle.elim
  · exact fun run => Session.run_optimistic_of_ok run

/-- **What a call that nobody gets in the way of does is what the ledger grants.** -/
theorem session_run_eq_ok_iff (sep : Scope.Separated U) (h : t.Depicts U l) (within : c.Within U) :
    c.session.run t = (.ok r, t') ↔ ∃ ps, l.Grants c r ps ∧ t' = t.putAll ps := by
  cases c with
  | write policy ids as =>
      rw [Call.session, Session.run_map_eq_ok]
      constructor
      · rintro ⟨r, run, rfl⟩
        exact (h.write_run_eq_ok_iff_puts sep within).mp run
      · rintro ⟨ps, granted, rfl⟩
        cases granted.answeredBy
        exact ⟨_, (h.write_run_eq_ok_iff_puts sep within).mpr ⟨ps, granted, rfl⟩, rfl⟩
  | activate policy a =>
      rw [Call.session, Session.run_map_eq_ok]
      constructor
      · rintro ⟨r, run, rfl⟩
        obtain ⟨s, p, n, hs, activates, rfl, rfl⟩ := (h.activate_run_eq_ok_iff sep within).mp run
        exact ⟨_, ⟨s, p, n, hs, activates, rfl, rfl⟩, rfl⟩
      · rintro ⟨ps, granted, rfl⟩
        cases granted.answeredBy
        obtain ⟨s, p, n, hs, activates, rfl, rfl⟩ := granted
        exact ⟨_, (h.activate_run_eq_ok_iff sep within).mpr ⟨s, p, n, hs, activates, rfl, rfl⟩, rfl⟩
  | advance policy s =>
      -- An undisturbed advance always goes through, so its run is known without the answer.
      obtain ⟨t'', attempt, -⟩ := h.attemptAdvance_run sep within
      have run : (advance policy s).run t = (.ok (l.next s.canonical), t'') :=
        Session.run_optimistic_of_ok attempt
      obtain ⟨-, rfl⟩ := (h.attemptAdvance_run_eq_ok_iff sep within).mp attempt
      rw [Call.session, Session.run_map_eq_ok]
      constructor
      · rintro ⟨n, run', rfl⟩
        cases run.symm.trans run'
        exact ⟨_, ⟨rfl, rfl⟩, rfl⟩
      · rintro ⟨ps, granted, rfl⟩
        cases granted.answeredBy
        obtain ⟨rfl, rfl⟩ := granted
        exact ⟨_, run, rfl⟩
  | setActive policy s n =>
      rw [Call.session, Session.run_map_eq_ok]
      simp only [h.setActive_run_eq_ok_iff sep within, h.attemptSetActive_run_eq_ok_iff sep within]
      constructor
      · rintro ⟨-, ⟨p, recorded, positive, written, rfl⟩, rfl⟩
        exact ⟨_, ⟨p, recorded, positive, written, rfl⟩, rfl⟩
      · rintro ⟨ps, granted, rfl⟩
        cases granted.answeredBy
        obtain ⟨p, recorded, positive, written, rfl⟩ := granted
        exact ⟨(), ⟨p, recorded, positive, written, rfl⟩, rfl⟩

end Table.Depicts

/-! ## One call beside another

The second call is granted the same by the ledger before the first one as by the ledger after it,
and the first one likewise. It remains that the two lists of puts come to the same table in either
order, versions included, which is `putAll_comm`. -/

namespace Call

/-- **A call that has gone through makes no difference to one that has no scope in common with it**,
unless that is an activation and the call has recorded a scope. -/
theorem exists_agreesFor (sep : Scope.Separated U) (h : t.Depicts U l) (within : c.Within U)
    (run : c.session.run t = (.ok r, t')) (apart : ∀ s, ¬ (c.Names s ∧ c'.Names s))
    (finds : c'.activation?.isSome → c.FindsScopes t) :
    ∃ l', t'.Depicts U l' ∧ l.AgreesFor c' l' := by
  rcases (isolated_session sep within ⟨l, h⟩).of_run_eq_ok ⟨l, h⟩ run with ⟨-, does⟩ | ⟨-, rfl⟩
  · obtain ⟨l', serves, depicts⟩ := exists_serves sep h within does
    refine ⟨l', depicts, ?_, ?_, ?_⟩
    · intro s hs
      exact (serves.frame fun names => apart s ⟨names, hs⟩).1
    · intro s hs
      exact (serves.frame fun names => apart s ⟨names, hs⟩).2
    · intro activation
      apply serves.recorded_iff
      intro advances s names
      obtain ⟨q, hq, canonical⟩ := within.exists_of_names names
      have stored := finds activation advances q (names.of_canonical_eq canonical.symm)
      rw [← canonical]
      exact mt (h.get?_recordKey_eq_none_iff hq).mpr stored
  · -- a call that asks for nothing changes nothing
    exact ⟨l, h, fun _ _ => rfl, fun _ _ _ _ => rfl, fun _ _ => Iff.rfl⟩

end Call

namespace System

variable {ι : Type} [DecidableEq ι]

/-- **Unrelated calls commute.** Two batches without a common scope, two activations of different
scopes, or an activation and a batch whose scopes are other ones and all recorded already: if the one
goes through and then the other, so they do the other way round, each with the same answer, and they
leave the same table behind, down to every version and the epoch. -/
theorem unrelated_calls_commute (sep : Scope.Separated U) (moves : List (Move ι))
    (within : ∀ h c, .call h c ∈ moves → c.Within U) (used : c.Within U) (used' : c'.Within U)
    (unrelated : c.Unrelated (run moves).table c') {t₁ t₂ : Table}
    (first : c.session.run (run moves).table = (.ok r, t₁))
    (second : c'.session.run t₁ = (.ok r', t₂)) :
    ∃ t₁', c'.session.run (run moves).table = (.ok r', t₁') ∧ c.session.run t₁' = (.ok r, t₂) := by
  obtain ⟨replies, l, traced⟩ := run_traced sep moves within
  have depicts := traced.trace.depicts
  obtain ⟨l₁, depicts₁, agrees₁⟩ :=
    Call.exists_agreesFor sep depicts used first unrelated.apart unrelated.finds
  obtain ⟨ps, granted, rfl⟩ := (depicts.session_run_eq_ok_iff sep used).mp first
  obtain ⟨ps', granted₁, rfl⟩ := (depicts₁.session_run_eq_ok_iff sep used').mp second
  -- the second call would have been granted the same before the first one
  have granted' := granted₁.congr agrees₁.symm
  have first' := (depicts.session_run_eq_ok_iff sep used').mpr ⟨ps', granted', rfl⟩
  obtain ⟨l₁', depicts₁', agrees₁'⟩ := Call.exists_agreesFor sep depicts used' first'
    (fun s both => unrelated.apart s both.symm) unrelated.finds'
  refine ⟨_, first', (depicts₁'.session_run_eq_ok_iff sep used).mpr
    ⟨ps, granted.congr agrees₁', ?_⟩⟩
  exact Table.putAll_comm (granted.agree_on_keys sep granted' used used' unrelated.apart)

/-- The calls go through one after the other, and the other way round as well, with the same answers
and the same table in the end. -/
def Commute (t : Table) (c c' : Call) : Prop := ∃ r r' t₁ t₁' t₂,
  (c.session.run t = (.ok r, t₁) ∧ c'.session.run t₁ = (.ok r', t₂)) ∧
    c'.session.run t = (.ok r', t₁') ∧ c.session.run t₁' = (.ok r, t₂)

/-- A write to the scope of some parameters, and an activation there. -/
def writeTo (params : List Parameter) : Call :=
  .write (.immediate 1) (.stamped 0) [⟨"limit", .integer 1, params⟩]

def activateIn (params : List Parameter) : Call := .activate (.immediate 1) ⟨params, none⟩

section Single

variable {params : List Parameter} {q : Scope}

theorem names_writeTo (hq : scopeOf params = .ok q) :
    (writeTo params).Names s ↔ q.canonical = s.canonical := by
  simp [writeTo, Call.Names, hq]

theorem names_activateIn (hq : scopeOf params = .ok q) :
    (activateIn params).Names s ↔ q.canonical = s.canonical := by
  simp [activateIn, Call.Names, hq]

end Single

/-- A write that records both scopes. -/
def founding : List (Move Bool) :=
  [.call true (.write (.immediate 1) (.stamped 1)
      [⟨"limit", .integer 1, []⟩, ⟨"limit", .integer 2, [⟨"env", .exactly "prod"⟩]⟩]),
    .serve true, .serve true, .serve true]

/-- Two writes that record their scopes, and calls in two scopes that are recorded. -/
theorem global_and_prod_commute :
    Commute .empty (writeTo []) (writeTo [⟨"env", .exactly "prod"⟩]) ∧
    Commute (run founding).table (activateIn []) (activateIn [⟨"env", .exactly "prod"⟩]) ∧
    Commute (run founding).table (writeTo []) (activateIn [⟨"env", .exactly "prod"⟩]) := by
  have commute {moves : List (Move Bool)} {c c' : Call}
      (within : ∀ k ∈ c :: c' :: moves.filterMap Move.call?, k.Within Scope.Sample)
      (unrelated : c.Unrelated (run moves).table c') (goes : (c.session.run (run moves).table).1.isOk ∧
        (c'.session.run (c.session.run (run moves).table).2).1.isOk) :
      Commute (run moves).table c c' := by
    obtain ⟨r, t₁, first⟩ := Session.exists_run_of_isOk goes.1
    rw [first] at goes
    obtain ⟨r', t₂, second⟩ := Session.exists_run_of_isOk goes.2
    obtain ⟨used, within⟩ := List.forall_mem_cons.mp within
    obtain ⟨used', within⟩ := List.forall_mem_cons.mp within
    obtain ⟨t₁', others⟩ := unrelated_calls_commute Scope.separated_sample moves
      (forall_call_iff.mpr within) used used' unrelated first second
    exact ⟨r, r', t₁, t₁', t₂, ⟨first, second⟩, others⟩
  have upper : scopeOf [] = .ok .global := rfl
  have lower : scopeOf [⟨"env", .exactly "prod"⟩] = .ok ⟨[("env", "prod")]⟩ := rfl
  have apart (s : Scope) : ¬ (Scope.global.canonical = s.canonical ∧
      (⟨[("env", "prod")]⟩ : Scope).canonical = s.canonical) := by
    rintro ⟨same, same'⟩
    exact absurd (same.trans same'.symm) (by decide)
  refine ⟨?_, ?_, ?_⟩
  · show Commute (run ([] : List (Move Bool))).table _ _
    apply commute (by decide +kernel)
    · apply Call.unrelated_writes
      intro s both
      exact apart s ⟨(names_writeTo upper).mp both.1, (names_writeTo lower).mp both.2⟩
    · decide +kernel
  · apply commute (by decide +kernel)
    · apply Call.unrelated_activations
      intro s both
      exact apart s ⟨(names_activateIn upper).mp both.1, (names_activateIn lower).mp both.2⟩
    · decide +kernel
  · apply commute (by decide +kernel)
    · refine (Call.unrelated_write_activation (fun s both => ?_) fun s names => ?_).1
      · exact apart s ⟨(names_writeTo upper).mp both.1, (names_activateIn lower).mp both.2⟩
      · rw [← Scope.id_eq_of_canonical_eq ((names_writeTo upper).mp names)]
        decide +kernel
    · decide +kernel

end System

end ScopedConfig
