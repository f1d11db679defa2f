import ScopedConfig.Proofs.Contention

/-!
# What can still fail after a write

A mixed batch is checked on a look at the records that may be out of date when the batch writes, and
more so when it activates and reads. What the check foresaw (`Ledger.ahead`) holds all the same of what
the batch finds (`Scene.Upholds`): recorded scopes stay recorded, at working revisions that only grow
(`Ledger.Reaches`). Only the absence of conflicts can be lost, by scopes that others record meanwhile
(`Ledger.Encloses`).

`firstPhases_uphold` follows a batch up to its write, `laterPhases_end` through the activations and the
reads. `System.late_failures` says for every schedule which errors are left.
-/

namespace ScopedConfig

open Layout Store

variable {U : Scope → Prop} {t t' : Table} {l l' m m' : Ledger} {ops : List Operation}

/-! ## Ledgers that were foreseen

What is there may be ahead of what was foreseen: working revisions may be higher (`Reaches`), and that
does no harm. Scopes that nobody foresaw may (`Encloses`), as a query that was not ambiguous can be so
with them. Both relations are kept when the write of the batch is done to either ledger. -/

namespace Ledger

/-- Every scope of the first ledger is recorded in the second one, at a working revision that is not
lower. -/
def Reaches (l l' : Ledger) : Prop :=
  ∀ s p, l.pointers s = some p → ∃ p', l'.pointers s = some p' ∧ p.working ≤ p'.working

/-- No other scopes are recorded in the second ledger than in the first one. -/
def Encloses (l l' : Ledger) : Prop := ∀ s, l'.pointers s ≠ none → l.pointers s ≠ none

namespace Reaches

theorem refl (l : Ledger) : l.Reaches l := (Keeps.refl l).pointers

theorem trans {l'' : Ledger} (h : l.Reaches l') (h' : l'.Reaches l'') : l.Reaches l'' := by
  intro s p hp
  obtain ⟨p', hp', le⟩ := h s p hp
  obtain ⟨p'', hp'', le'⟩ := h' s p' hp'
  exact ⟨p'', hp'', UInt64.le_trans le le'⟩

theorem of_alike (h : l.Alike l') : l.Reaches l' := by
  intro s p hp
  have same := h s
  rw [hp, Option.map_some, eq_comm, Option.map_eq_some_iff] at same
  obtain ⟨p', hp', working⟩ := same
  exact ⟨p', hp', UInt64.le_of_eq working.symm⟩

/-- A revision that could be activated still can, as far as the record goes. -/
theorem activates (h : l.Reaches l') (orderly : l'.Orderly) {s : Scope}
    {revision : Option Revision} {p : Pointers} {n : Revision} (before : l.Activates s revision p n) :
    ∃ p', l'.pointers s.canonical = some p' ∧ revision.getD p'.working ≠ 0 ∧
      revision.getD p'.working ≤ p'.working := by
  obtain ⟨p', hp', le⟩ := h _ p before.recorded
  refine ⟨p', hp', ?_⟩
  cases revision with
  | none => exact ⟨orderly.working _ p' hp', UInt64.le_refl _⟩
  | some k =>
      have asked : n = k := before.revision
      exact ⟨asked ▸ before.positive, UInt64.le_trans (asked ▸ before.written) le⟩

theorem next_le (h : l.Reaches l') (roomy : l'.Roomy) (s : Scope) : l.next s ≤ l'.next s := by
  -- The earlier ledger has come no further, so it has room as well.
  have roomy₀ : l.Roomy := by
    intro s p hp
    obtain ⟨p', hp', le⟩ := h s p hp
    have := roomy s p' hp'
    have := UInt64.le_iff_toNat_le.mp le
    omega
  rw [UInt64.le_iff_toNat_le, roomy.toNat_next, roomy₀.toNat_next]
  cases hp : l.pointers s with
  | none => simp
  | some p =>
      obtain ⟨p', hp', le⟩ := h s p hp
      rw [hp']
      exact Nat.succ_le_succ (UInt64.le_iff_toNat_le.mp le)

/-- **What is foreseen of an earlier ledger is reached by the same writes later.** -/
theorem ahead (h : l.Reaches l') (roomy : l'.Roomy) (ops : List Operation) :
    (l.ahead ops).Reaches (l'.ahead ops) := by
  intro s p hp
  simp only [Ledger.ahead, pointers_advance, if_true] at hp ⊢
  split at hp
  · next named =>
    rw [if_pos named]
    cases hp
    exact ⟨_, rfl, h.next_le roomy s⟩
  · next other =>
    rw [if_neg other]
    exact h s p hp

end Reaches

namespace Encloses

theorem refl (l : Ledger) : l.Encloses l := fun _ hs => hs

theorem of_alike (h : l.Alike l') : l.Encloses l' := fun s => (h.pointers_ne_none_iff s).mpr

theorem trans {l'' : Ledger} (h : l.Encloses l') (h' : l'.Encloses l'') : l.Encloses l'' :=
  fun s hs => h s (h' s hs)

/-- A query is ambiguous only with more scopes. -/
theorem unambiguous (h : l.Encloses l') {q : Scope} (before : l.Unambiguous q) :
    l'.Unambiguous q := by
  intro a b ha hb
  exact before a b (h a ha) (h b hb)

theorem ahead (h : l.Encloses l') (ops : List Operation) : (l.ahead ops).Encloses (l'.ahead ops) := by
  intro s hs
  simp only [Ledger.ahead, pointers_advance, if_true] at hs ⊢
  split at hs
  · next named =>
    rw [if_pos named]
    exact Option.some_ne_none _
  · next other =>
    rw [if_neg other]
    exact h s hs

end Encloses

end Ledger

/-! ## What others leave of it

The invariant of a batch at work is `Upholds`: the table depicts a coherent ledger that reaches what
was foreseen, and that has no other scopes unless one of the commits since the look at the records
has recorded one. Turns of others keep it (`Upholds.later`), and so do the answers to the requests
of the batch (`Upholds.serve`). -/

/-- The table depicts a coherent ledger. -/
def Table.Whole (U : Scope → Prop) (t : Table) : Prop := ∃ l, t.Depicts U l ∧ l.Coherent

namespace Leads

variable {ks : List Commit}

/-- From a coherent ledger, others lead to a coherent ledger that keeps it. -/
theorem exists_coherent (sep : Scope.Separated U) (h : t.Depicts U l) (coherent : l.Coherent)
    (leads : Leads U t ks t') (plain : ∀ k ∈ ks, k.before.Roomy ∧ k.call.Fits) :
    ∃ l', t'.Depicts U l' ∧ l'.Coherent ∧ l.Keeps l' := by
  apply leads.exists_ledger sep h (I := fun l' => l'.Coherent ∧ l.Keeps l') ⟨coherent, .refl l⟩
  rintro k hk mid r next depicts ⟨coherent, keeps⟩ serves
  obtain ⟨roomy, fits⟩ := plain k hk
  have roomy := depicts.roomy sep roomy
  exact ⟨coherent.serves roomy fits serves, keeps.trans (Ledger.keeps_of_serves roomy serves)⟩

/-- Where there is a record that was not there, one of the commits has put it there. -/
theorem exists_creates_of_ne_none (leads : Leads U t ks t') {i : ScopeId}
    (absent : t.get? (recordKey i) = none) (stored : t'.get? (recordKey i) ≠ none) :
    ∃ k ∈ ks, k.Creates := by
  induction ks generalizing t with
  | nil =>
      cases leads
      exact absurd absent stored
  | cons k ks ih =>
      obtain ⟨rfl, -, -, rest⟩ := leads
      cases after : k.after.get? (recordKey i) with
      | none =>
          obtain ⟨k', hk', creates⟩ := ih rest after
          exact ⟨k', List.mem_cons_of_mem k hk', creates⟩
      | some stored => exact ⟨k, List.mem_cons_self, i, absent, by rw [after]; exact Option.some_ne_none _⟩

theorem encloses_or_creates (h : t.Depicts U l) (h' : t'.Depicts U l') (leads : Leads U t ks t') :
    l.Encloses l' ∨ ∃ k ∈ ks, k.Creates := by
  by_cases all : l.Encloses l'
  · exact .inl all
  · right
    simp only [Ledger.Encloses, not_forall] at all
    obtain ⟨c, recorded, new⟩ := all
    obtain ⟨s, used, rfl⟩ := h'.pointers c recorded
    apply leads.exists_creates_of_ne_none (i := s.id)
    · exact (h.get?_recordKey_eq_none_iff used).mpr (not_not.mp new)
    · exact mt (h'.get?_recordKey_eq_none_iff used).mp recorded

end Leads

/-- The second scene may be what the first one is when the guest makes its next request, while there
are revisions left and values can be stored. -/
abbrev Interrupted (U : Scope → Prop) : Scene → Scene → Prop :=
  Scene.Later U (fun k => k.before.Roomy ∧ k.call.Fits) Table.Roomy

namespace Scene

variable {σ σ' : Scene} {needed : Bool} {i : Nat}

/-- A batch that looked at the records at moment `i`, if it needed to, and then foresaw a ledger, finds
at least that one. There are no other scopes, unless somebody else has recorded them since. -/
structure Upholds (U : Scope → Prop) (needed : Bool) (l : Ledger) (i : Nat) (σ : Scene) : Prop where
  moment : i ≤ σ.log.length
  first : needed = true →
    ∃ v, σ.stops.head? = some v ∧ v.request = .scan recordPrefix ∧ v.moment = i
  ledger : ∃ l', σ.table.Depicts U l' ∧ l'.Coherent ∧ l.Reaches l' ∧
    (l.Encloses l' ∨ ∃ k ∈ σ.log.drop i, k.Creates)

/-- The first request was for the records, and somebody else has recorded a scope since. -/
def Enlarged (σ : Scene) : Prop :=
  ∃ v, σ.stops.head? = some v ∧ v.request = .scan recordPrefix ∧
    ∃ k ∈ σ.log.drop v.moment, k.Creates

theorem Later.whole (sep : Scope.Separated U) (later : Interrupted U σ σ')
    (h : σ.table.Whole U) : σ'.table.Whole U := by
  obtain ⟨l, depicts, coherent⟩ := h
  obtain ⟨ks, -, leads, plain⟩ := later.leads
  obtain ⟨l', depicts', coherent', -⟩ := leads.exists_coherent sep depicts coherent plain
  exact ⟨l', depicts', coherent'⟩

theorem head?_serve {v : Stop} (h : σ.stops.head? = some v) (r : Request) :
    (σ.serve r).stops.head? = some v := by
  show (σ.stops ++ _).head? = some v
  rw [List.head?_append, h]
  rfl

namespace Enlarged

theorem later {P : Commit → Prop} {Q : Table → Prop} (h : σ.Enlarged) (later : σ.Later U P Q σ') :
    σ'.Enlarged := by
  obtain ⟨v, head, request, k, hk, creates⟩ := h
  refine ⟨v, later.stops ▸ head, request, k, ?_, creates⟩
  exact (List.IsPrefix.drop later.log_le _).subset hk

theorem serve (h : σ.Enlarged) (r : Request) : (σ.serve r).Enlarged := by
  obtain ⟨v, head, rest⟩ := h
  exact ⟨v, head?_serve head r, rest⟩

end Enlarged

namespace Upholds

/-- The table depicts some coherent ledger. -/
theorem whole (h : σ.Upholds U needed l i) : σ.table.Whole U := by
  obtain ⟨l', depicts, coherent, -⟩ := h.ledger
  exact ⟨l', depicts, coherent⟩

/-- **Others go on from there.** -/
theorem later (sep : Scope.Separated U) (h : σ.Upholds U needed l i)
    (later : Interrupted U σ σ') : σ'.Upholds U needed l i := by
  obtain ⟨l₁, depicts, coherent, reaches, encloses⟩ := h.ledger
  obtain ⟨ks, log, leads, plain⟩ := later.leads
  obtain ⟨l₂, depicts', coherent', keeps⟩ := leads.exists_coherent sep depicts coherent plain
  refine ⟨Nat.le_trans h.moment later.log_le.length_le, ?_, l₂, depicts', coherent',
    reaches.trans keeps.pointers, ?_⟩
  · rw [later.stops]
    exact h.first
  · rw [log, List.drop_append_of_le_length h.moment]
    rcases encloses with encloses | ⟨k, hk, creates⟩
    · rcases leads.encloses_or_creates depicts depicts' with encloses' | ⟨k, hk, creates⟩
      · exact .inl (encloses.trans encloses')
      · exact .inr ⟨k, List.mem_append_right _ hk, creates⟩
    · exact .inr ⟨k, List.mem_append_left _ hk, creates⟩

/-- An answer that leaves a ledger which upholds what is foreseen. -/
theorem serve (h : σ.Upholds U needed l i) (r : Request)
    (ledger : ∃ l', (σ.table.answer r).2.Depicts U l' ∧ l'.Coherent ∧ m.Reaches l' ∧
      (m.Encloses l' ∨ ∃ k ∈ σ.log.drop i, k.Creates)) : (σ.serve r).Upholds U needed m i := by
  refine ⟨h.moment, fun hn => ?_, ledger⟩
  obtain ⟨v, head, rest⟩ := h.first hn
  exact ⟨v, head?_serve head r, rest⟩

theorem serve_same (h : σ.Upholds U needed l i) (r : Request)
    (same : (σ.table.answer r).2 = σ.table) : (σ.serve r).Upholds U needed l i := by
  apply h.serve
  rw [same]
  exact h.ledger

/-- Where scopes are recorded that were not foreseen, somebody else has recorded one. -/
theorem enlarged (h : σ.Upholds U true l i) (created : ∃ k ∈ σ.log.drop i, k.Creates) :
    σ.Enlarged := by
  obtain ⟨v, head, request, rfl⟩ := h.first rfl
  exact ⟨v, head, request, created⟩

end Upholds

end Scene

/-! ## Reads

Whatever others put through, it leaves a table that depicts a coherent ledger, and on such a table every
look-up answers. -/

/-- Whatever others put through meanwhile, the session answers or fails with one of some errors. -/
def Session.Steadfast {α : Type} (U : Scope → Prop) (E : StoreError → Prop) (x : Session α) : Prop :=
  ∀ σ : Scene, σ.table.Whole U →
    x.Ends (Interrupted U) (fun r σ' => σ'.table.Whole U ∧ ∀ e, r = .error e → E e) σ

namespace Session.Steadfast

variable {α β : Type} {E E' : StoreError → Prop}

theorem fail {e : StoreError} (h : E e) : (Session.done (.error e) : Session α).Steadfast U E := by
  intro σ whole
  refine ⟨whole, fun e' same => ?_⟩
  cases same
  exact h

theorem imp {x : Session α} (h : x.Steadfast U E) (weaker : ∀ e, E e → E' e) : x.Steadfast U E' := by
  intro σ whole
  apply (h σ whole).imp
  intro r σ' ends
  exact ⟨ends.1, fun e failed => weaker e (ends.2 e failed)⟩

theorem composable : Composable fun _ x => x.Steadfast U E where
  done a := by
    intro σ whole
    exact ⟨whole, nofun⟩
  bind := by
    intro α β x f hx hf σ whole
    apply (hx σ whole).bind
    · intro a σ' ends
      exact hf a σ' ends.1
    · intro e σ' ends
      exact fail (ends.2 e rfl) σ' ends.1

end Session.Steadfast

theorem Scene.serve_whole {σ : Scene} {r : Request} (reading : r.isTransaction = false)
    (h : σ.table.Whole U) : (σ.serve r).table.Whole U := by
  show (σ.table.answer r).2.Whole U
  rwa [Table.answer_of_reading reading]

namespace Store

variable {σ : Scene} {c : Catalog} {op : Operation} {fallback : Fallback} {E : StoreError → Prop}

/-- On a table that depicts a coherent ledger a record is read back. -/
theorem load_steadfast (sep : Scope.Separated U) (s : Scope) : (load s).Steadfast U E := by
  intro σ whole
  apply Session.Ends.load
  intro σ' later
  have whole' := later.whole sep whole
  have ⟨l, depicts, coherent⟩ := whole'
  obtain ⟨loaded, run⟩ := depicts.load_answers sep s
  rw [run]
  exact ⟨Scene.serve_whole rfl whole', nofun⟩

/-- And so is an entry: below the prefix of a property there are only rows of entries, which decode.
-/
theorem entryAsOf_steadfast (sep : Scope.Separated U) (name : String) (s : Scope) (n : Revision) :
    (entryAsOf name s n).Steadfast U E := by
  intro σ whole
  rw [entryAsOf_eq]
  apply Session.Ends.of_single
  · intro answer
    cases answer <;> exact ⟨_, rfl⟩
  · intro σ' later
    have whole' := later.whole sep whole
    have ⟨l, depicts, coherent⟩ := whole'
    obtain ⟨entry, run⟩ := depicts.entryAsOf_answers coherent.fits name s n
    rw [entryAsOf_eq] at run
    have answered := congrArg Prod.fst run
    refine ⟨Scene.serve_whole rfl whole', fun e failed => ?_⟩
    cases answered.symm.trans failed

/-- The operation is a read that the catalog does not let through. -/
def Denied (c : Catalog) (op : Operation) (e : StoreError) : Prop :=
  ∃ q s, op = .read q ∧ q.revision = none ∧ scopeOf q.params = .ok s ∧ c.checkConflicts s = .error e

theorem denied_of_check {e : StoreError} (valid : op.Valid) (read : op.isRead)
    (failed : check c op = .error e) : Denied c op e := by
  cases op with
  | assign | activate => cases read
  | list q =>
      obtain ⟨f, hf⟩ := Filter.exists_ofParameters_iff.mpr valid
      rw [check, hf] at failed
      cases failed
  | read q =>
      obtain ⟨s, hs⟩ := exists_scopeOf_iff.mpr valid
      rw [check, hs] at failed
      cases active : q.revision with
      | some n =>
          rw [active] at failed
          cases failed
      | none =>
          rw [active] at failed
          exact ⟨q, s, rfl, active, hs, failed⟩

/-- **A read answers, unless the catalog does not let it through.** -/
theorem answer_steadfast (sep : Scope.Separated U) (fallback : Fallback) (c : Catalog)
    (valid : op.Valid) : (answer fallback c op).Steadfast U (Denied c op) := by
  apply Session.Steadfast.composable.answer (load_steadfast sep) (entryAsOf_steadfast sep)
  intro e read failed α
  exact .fail (denied_of_check valid read failed)

theorem answers_steadfast (sep : Scope.Separated U) (fallback : Fallback) (c : Catalog)
    (valid : ∀ op ∈ ops, op.Valid) :
    (Session.collect (answer fallback c) ops).Steadfast U fun e => ∃ op ∈ ops, Denied c op e := by
  apply Session.Steadfast.composable.collect
  intro op hop
  exact (answer_steadfast sep fallback c (valid op hop)).imp fun e denied => ⟨op, hop, denied⟩

end Store

/-! ## Activations

An attempt looks at the epoch, at all records and then at its own, with others at work before each
request, and its transaction is refused if the epoch or the record has moved on. That is a conflict,
and the attempt is made again. Anything else that goes wrong shows in the catalog: a scope is recorded
there that was not foreseen. -/

namespace Store

variable {σ : Scene} {needed : Bool} {i : Nat} {s : Scope} {revision : Option Revision}
  {p : Pointers} {n : Revision}

/-- A catalog lists no other scopes than were foreseen, unless somebody else has recorded one. -/
theorem catalog_upholds (sep : Scope.Separated U) (h : σ.Upholds U needed l i) :
    catalog.Ends (Interrupted U) (fun r σ' => σ'.Upholds U needed l i ∧ ∃ c l', r = .ok c ∧
      c.Lists l' ∧ (l.Encloses l' ∨ ∃ k ∈ σ'.log.drop i, k.Creates)) σ := by
  apply Session.Ends.catalog
  intro σ' later
  have h' := h.later sep later
  obtain ⟨l', depicts, -, -, encloses⟩ := h'.ledger
  obtain ⟨c, run, lists⟩ := depicts.catalog_run sep
  rw [run]
  exact ⟨h'.serve_same _ rfl, c, l', rfl, lists, encloses⟩

/-- The record that an activation loads, if it was foreseen, has the revision. -/
theorem load_stages (sep : Scope.Separated U) (hs : U s) (foreseen : l.Activates s revision p n)
    (h : σ.Upholds U needed l i) :
    (load s).Ends (Interrupted U) (fun r _ => ∃ loaded ops, r = .ok loaded ∧
      loaded.stageActivation (revision.getD loaded.record.working) = .ok ops) σ := by
  apply Session.Ends.load
  intro σ' later
  obtain ⟨l', depicts, coherent, reaches, -⟩ := (h.later sep later).ledger
  obtain ⟨p', hp', positive, written⟩ := reaches.activates coherent.orderly foreseen
  rw [depicts.load_run sep hs]
  refine ⟨_, _, rfl, (depicts.stageActivation_eq_ok_iff hs).mpr ⟨p', hp', ?_, ?_, rfl⟩⟩
  · rwa [l'.record_eq hp']
  · rwa [l'.record_eq hp']

/-- An attempt at an activation leaves what it finds, but for the active revision of its scope. -/
theorem attemptActivate_keeps (sep : Scope.Separated U) (hs : U s) (revision : Option Revision)
    (h : σ.Upholds U needed l i) :
    (attemptActivate s revision).Ends (Interrupted U)
      (fun r σ' => (∀ a, r = .ok a → σ'.Upholds U needed l i) ∧
        ∀ e, r = .error e → σ'.Upholds U needed l i) σ := by
  have isolated : (attemptActivate s revision).Isolated (Table.Sound U)
      (fun t a t' => (attemptActivate s revision).run t = (.ok a, t')) (fun _ _ => False) σ.table :=
    isolated_attemptActivate sep hs revision (fun _ _ _ _ run => run) σ.table
  apply Session.Ends.of_isolated isolated h
  · exact fun σ σ' later h => ⟨h.later sep later, later.growsTo⟩
  · intro σ h
    obtain ⟨l', depicts, -⟩ := h.whole
    exact ⟨l', depicts⟩
  · exact fun σ r same h => h.serve_same r same
  · intro σ σ' r a later h transacts run
    obtain ⟨l', depicts, coherent, reaches, encloses⟩ := h.ledger
    obtain ⟨p, n, activates, -, eq⟩ := (depicts.attemptActivate_run_eq_ok_iff sep hs).mp run
    have alike := Ledger.Alike.activate activates.recorded n
    apply h.serve
    rw [eq]
    exact ⟨_, depicts.depicts_activated sep hs activates.recorded n,
      coherent.activate activates.recorded activates.positive activates.written,
      reaches.trans (.of_alike alike), encloses.imp (·.trans (.of_alike alike)) id⟩
  · exact fun _ _ _ => False.elim

/-- **An attempt at an activation that was foreseen meets a conflict**, if it fails, or is ambiguous by
a scope that somebody else has recorded. -/
theorem attemptActivate_fails (sep : Scope.Separated U) (hs : U s)
    (foreseen : l.Activates s revision p n) (h : σ.Upholds U needed l i) :
    (attemptActivate s revision).Ends (Interrupted U)
      (fun r σ' => ∀ e, r = .error e → e.isConflict ∨
        (∃ q a b, e = .ambiguousScope q a b) ∧ ∃ k ∈ σ'.log.drop i, k.Creates) σ := by
  have reads_epoch : epoch.Ends (Interrupted U)
      (fun r σ' => σ'.Upholds U needed l i ∧ ∃ version, r = .ok version) σ := by
    apply Session.Ends.epoch
    intro σ' later
    exact ⟨(h.later sep later).serve_same _ rfl, _, rfl⟩
  apply reads_epoch.bind
  · rintro _ σ₁ ⟨h₁, version, ⟨⟩⟩
    apply (catalog_upholds sep h₁).bind
    · rintro c σ₂ ⟨h₂, _, l', ⟨⟩, lists, encloses⟩
      cases conflicts : c.checkConflicts s with
      -- The catalog refuses: it lists a scope that was not foreseen, and somebody has recorded it.
      | error e =>
          rintro _ ⟨⟩
          rcases encloses with encloses | created
          · have passes := encloses.unambiguous foreseen.unambiguous
            rw [← lists.checkConflicts_eq_ok_iff, conflicts] at passes
            cases passes
          · obtain ⟨a, b, rfl⟩ := Catalog.exists_of_checkConflicts conflicts
            exact .inr ⟨⟨s, a, b, rfl⟩, created⟩
      | ok u =>
          apply (load_stages sep hs foreseen h₂).bind
          · rintro loaded σ₃ ⟨_, ops, ⟨⟩, staged⟩
            show ((Session.done (loaded.stageActivation _)).bind _).Ends _ _ σ₃
            rw [staged]
            apply Session.Ends.transact
            · rintro σ₄ t₄ - - e ⟨⟩
            · rintro σ₄ e - refuses _ ⟨⟩
              -- The epoch has moved on, or the record has. Either is a conflict.
              rcases Table.Refuses.expect_iff.mp refuses with ⟨-, rfl⟩ | ⟨-, refuses⟩
              · exact .inl rfl
              · obtain ⟨-, rfl⟩ := stageActivation_refuses staged refuses
                exact .inl rfl
          · rintro e σ₃ ⟨_, _, ⟨⟩, -⟩
    · rintro e σ₂ ⟨-, _, _, ⟨⟩, -⟩
  · rintro e σ₁ ⟨-, _, ⟨⟩⟩

/-- **An activation that was foreseen.** -/
theorem activate_upholds (sep : Scope.Separated U) {policy : RetryPolicy} {a : Activation}
    (used : (Operation.activate a).Within U) (foreseen : l.Allows (.activate a))
    (h : σ.Upholds U needed l i) :
    (activate policy a).Ends (Interrupted U)
      (fun r σ' => σ'.Upholds U needed l i ∧ ∀ e, r = .error e → e = .retriesExhausted policy.attempts ∨
        (∃ q a b, e = .ambiguousScope q a b) ∧ ∃ k ∈ σ'.log.drop i, k.Creates) σ := by
  obtain ⟨s, p, n, hs, foreseen⟩ := foreseen
  show ((Session.done (scopeOf a.params)).bind _).Ends _ _ σ
  rw [hs]
  apply Session.Ends.optimistic (I := fun _ σ => σ.Upholds U needed l i) h
  · intro _ σ h
    apply ((attemptActivate_keeps sep (used s hs) a.revision h).and
      (attemptActivate_fails sep (used s hs) foreseen h)).imp
    rintro r σ' ⟨⟨ok, error⟩, fails⟩
    refine ⟨fun a ha => ⟨ok a ha, nofun⟩, fun e he => ?_⟩
    split
    · exact error e he
    · next no =>
      refine ⟨error e he, ?_⟩
      rintro _ ⟨⟩
      exact .inr ((fails e he).resolve_left no)
  · intro σ h
    refine ⟨h, ?_⟩
    rintro _ ⟨⟩
    exact .inl rfl

/-- Activations one after another. That each was foreseen stays true through those before it, since
none of them takes a revision or records a scope. -/
theorem activations_uphold (sep : Scope.Separated U) {policy : RetryPolicy} {as : List Activation}
    (used : ∀ a ∈ as, (Operation.activate a).Within U)
    (foreseen : ∀ a ∈ as, l.Allows (.activate a)) (h : σ.Upholds U needed l i) :
    (Session.collect (activate policy) as).Ends (Interrupted U)
      (fun r σ' => σ'.Upholds U needed l i ∧ ∀ e, r = .error e → e = .retriesExhausted policy.attempts ∨
        (∃ q a b, e = .ambiguousScope q a b) ∧ ∃ k ∈ σ'.log.drop i, k.Creates) σ := by
  induction as generalizing σ with
  | nil =>
      refine ⟨h, ?_⟩
      rintro e ⟨⟩
  | cons a as ih =>
      obtain ⟨hused, used⟩ := List.forall_mem_cons.mp used
      obtain ⟨hforeseen, foreseen⟩ := List.forall_mem_cons.mp foreseen
      rw [Session.collect]
      apply (activate_upholds sep hused hforeseen h).bind
      · rintro r σ₁ ⟨h₁, -⟩
        apply (ih used foreseen h₁).bind
        · rintro rs σ₂ ⟨h₂, -⟩
          refine ⟨h₂, ?_⟩
          rintro e ⟨⟩
        · rintro e σ₂ ⟨h₂, fails⟩
          refine ⟨h₂, ?_⟩
          rintro _ ⟨⟩
          exact fails e rfl
      · rintro e σ₁ ⟨h₁, fails⟩
        refine ⟨h₁, ?_⟩
        rintro _ ⟨⟩
        exact fails e rfl

end Store

/-! ## Phases

A batch is cut in two behind its write. `firstPhases_uphold` says that once the first part has gone
through the invariant holds of what was foreseen, and `laterPhases_end` starts from there. -/

namespace Store

variable {σ : Scene} {settings : Settings} {ids : Nat → BatchId}

/-- A batch up to its write: the check ahead, and the write. -/
def firstPhases (settings : Settings) (ids : Nat → BatchId) (ops : List Operation) :
    Session (Catalog × List Written) :=
  (catalogIf (ops.any Operation.needsCatalog)).bind fun before =>
  (Session.done (preflight before ops)).bind fun _ =>
  (writePhase settings.retryPolicy ids ops).bind fun written => .done (.ok (before, written))

/-- The rest of the batch: the activations, and the reads. -/
def laterPhases (settings : Settings) (ops : List Operation) (first : Catalog × List Written) :
    Session (List Outcome) :=
  (activatePhase settings.retryPolicy ops).bind fun activated =>
  (reload first.1 ops).bind fun current =>
  (Session.collect (answer settings.fallback current) ops).bind fun answers =>
  .done (.ok (arrange ops first.2 activated answers))

/-- A batch is its first phases and then the rest. -/
theorem execute_eq_phases (settings : Settings) (ids : Nat → BatchId) (ops : List Operation) :
    execute settings ids ops = (firstPhases settings ids ops).bind (laterPhases settings ops) := by
  rw [execute_eq, firstPhases, Session.bind_assoc]
  congr 1
  funext before
  rw [Session.bind_assoc]
  congr 1
  funext _
  rw [Session.bind_assoc]
  rfl

/-- The look at the records. -/
theorem catalogIf_upholds (sep : Scope.Separated U) (needed : Bool) (whole : σ.table.Whole U)
    (first : σ.stops = []) :
    (catalogIf needed).Ends (Interrupted U) (fun r σ' => ∃ before l i, ∃ t : Table, r = .ok before ∧
      t.Depicts U l ∧ (needed = true → before.Lists l) ∧ σ'.Upholds U needed l i) σ := by
  cases needed with
  | false =>
      obtain ⟨l, depicts, coherent⟩ := whole
      exact ⟨⟨[]⟩, l, σ.log.length, σ.table, rfl, depicts, nofun, Nat.le_refl _, nofun, l, depicts,
        coherent, .refl l, .inl (.refl l)⟩
  | true =>
      apply Session.Ends.catalog
      intro σ' later
      obtain ⟨l, depicts, coherent⟩ := later.whole sep whole
      obtain ⟨c, run, lists⟩ := depicts.catalog_run sep
      rw [run]
      refine ⟨c, l, σ'.log.length, σ'.table, rfl, depicts, fun _ => lists, Nat.le_refl _, fun _ => ?_,
        l, depicts, coherent, .refl l, .inl (.refl l)⟩
      refine ⟨⟨⟨.scan recordPrefix, σ'.table⟩, σ'.log.length⟩, ?_, rfl, rfl⟩
      show (σ'.stops ++ _).head? = _
      rw [later.stops, first]
      rfl

/-- **The write brings about what was foreseen.** -/
theorem write_upholds (sep : Scope.Separated U) {policy : RetryPolicy} {needed : Bool} {i : Nat}
    (used : ∀ op ∈ ops, op.Within U) (fits : ∀ op ∈ ops, op.Fits)
    (some : ops.filterMap Operation.assignment? ≠ []) (h : σ.Upholds U needed l i) :
    (write policy ids (ops.filterMap Operation.assignment?)).Ends (Interrupted U)
      (fun r σ' => ∀ a, r = .ok a → (∃ placed, place (ops.filterMap Operation.assignment?) = .ok placed) ∧
        σ'.Upholds U needed (l.ahead ops) i) σ := by
  have within : (Call.write policy ids (ops.filterMap Operation.assignment?)).Within U :=
    fun a ha => used _ (Operation.mem_filterMap_assignment?.mp ha)
  have stored : (Call.write policy ids (ops.filterMap Operation.assignment?)).Fits :=
    fun a ha => fits _ (Operation.mem_filterMap_assignment?.mp ha)
  have sound {σ : Scene} (h : σ.Upholds U needed l i) : σ.table.Sound U := by
    obtain ⟨l', depicts, -⟩ := h.whole
    exact ⟨l', depicts⟩
  -- A write commits by its last request if at all, and up to there nothing changes.
  suffices ends : (write policy ids (ops.filterMap Operation.assignment?)).Ends (Interrupted U)
      (fun r σ' => (∀ a, r = .ok a →
        (∃ placed, place (ops.filterMap Operation.assignment?) = .ok placed) ∧
          σ'.Upholds U needed (l.ahead ops) i) ∧
        ∀ e, r = .error e → σ'.Upholds U needed l i) σ from
    ends.imp fun r σ' ended => ended.1
  apply Session.Ends.of_isolated (Call.isolated_write sep within (sound h)) h
  · exact fun σ σ' later h => ⟨h.later sep later, later.growsTo⟩
  · exact fun _ => sound
  · exact fun σ r same h => h.serve_same r same
  · rintro σ σ' r a later h - ⟨-, does⟩
    obtain ⟨l', depicts, coherent, reaches, encloses⟩ := h.ledger
    have roomy := depicts.roomy sep later.met
    obtain ⟨l'', serves, depicts''⟩ := Call.exists_serves sep depicts within does
    have coherent'' := coherent.serves roomy stored serves
    obtain ⟨placed, n, places, -, rfl⟩ := serves
    have located := (place_eq_ok_iff_located.mp places).1
    have alike : (l'.ahead ops).Alike (l'.write (ids n) placed) :=
      .of_pointers_eq (located.pointers_write_eq_ahead (ids n)).symm
    refine ⟨⟨placed, places⟩, h.serve r ⟨_, depicts'', coherent'', ?_, ?_⟩⟩
    · exact (reaches.ahead roomy ops).trans (.of_alike alike)
    · exact encloses.imp (fun encloses => (encloses.ahead ops).trans (.of_alike alike)) id
  · intro σ a _ idle
    cases as : ops.filterMap Operation.assignment? with
    | nil => exact absurd as some
    | cons a as' =>
        rw [as] at idle
        cases idle

/-- **After its first phases a batch finds what it foresaw.** -/
theorem firstPhases_uphold (sep : Scope.Separated U) (used : ∀ op ∈ ops, op.Within U)
    (fits : ∀ op ∈ ops, op.Fits) (whole : σ.table.Whole U) (first : σ.stops = []) :
    (firstPhases settings ids ops).Ends (Interrupted U) (fun r σ' => ∀ passed, r = .ok passed →
      ∃ l i, l.Accepts ops ∧ (ops.any Operation.needsCatalog = true → passed.1.Lists l) ∧
        σ'.Upholds U (ops.any Operation.needsCatalog) (l.ahead ops) i) σ := by
  apply (catalogIf_upholds sep _ whole first).bind
  · rintro before σ₁ ⟨_, l, i, t, ⟨⟩, depicts, lists, h⟩
    cases passes : preflight before ops with
    | error e =>
        rintro _ ⟨⟩
    | ok u =>
        have phase : (writePhase settings.retryPolicy ids ops).Ends (Interrupted U)
            (fun r σ' => ∀ ws, r = .ok ws →
              (∃ placed, place (ops.filterMap Operation.assignment?) = .ok placed) ∧
              σ'.Upholds U (ops.any Operation.needsCatalog) (l.ahead ops) i) σ₁ := by
          unfold writePhase
          split
          · next none =>
            rw [List.isEmpty_iff] at none
            rintro _ ⟨⟩
            exact ⟨⟨[], by rw [none]; rfl⟩, (Ledger.ahead_eq_self none).symm ▸ h⟩
          · next some =>
            rw [List.isEmpty_iff] at some
            apply (write_upholds sep used fits some h).bind
            · rintro receipt σ₂ upholds ws ⟨⟩
              exact upholds receipt rfl
            · rintro e σ₂ - ws ⟨⟩
        apply phase.bind
        · rintro ws σ₂ upholds _ ⟨⟩
          obtain ⟨⟨placed, places⟩, h₂⟩ := upholds ws rfl
          exact ⟨l, i, (depicts.accepts_iff_of_catalogIf sep lists).mpr ⟨passes, placed, places⟩,
            lists, h₂⟩
        · rintro e σ₂ - _ ⟨⟩
  · rintro e σ₁ ⟨_, _, _, _, ⟨⟩, -⟩

/-- A read that was foreseen is let through where there are no other scopes. -/
theorem not_denied {c : Catalog} {op : Operation} {e : StoreError} (allowed : l.Allows op)
    (lists : c.Lists l') (encloses : l.Encloses l') : ¬ Denied c op e := by
  rintro ⟨q, s, rfl, active, hs, denied⟩
  obtain ⟨s', hs', unambiguous⟩ := allowed active
  cases hs.symm.trans hs'
  rw [lists.checkConflicts_eq_ok_iff.mpr (encloses.unambiguous unambiguous)] at denied
  cases denied

/-- The catalog for the reads lets through what was foreseen, unless somebody else has recorded a
scope. -/
theorem reload_ends (sep : Scope.Separated U) {i : Nat} {before : Catalog} (accepts : l.Accepts ops)
    (lists : ops.any Operation.needsCatalog = true → before.Lists l)
    (h : σ.Upholds U (ops.any Operation.needsCatalog) (l.ahead ops) i) :
    (reload before ops).Ends (Interrupted U) (fun r σ' => ∃ c, r = .ok c ∧ σ'.table.Whole U ∧
      ∀ op ∈ ops, ∀ e, Denied c op e → σ'.Enlarged) σ := by
  have needs {c : Catalog} {op : Operation} {e : StoreError} (hop : op ∈ ops)
      (denied : Denied c op e) : ops.any Operation.needsCatalog = true := by
    obtain ⟨q, s, rfl, active, -⟩ := denied
    exact List.any_eq_true.mpr ⟨_, hop, by simp [Operation.needsCatalog, active]⟩
  unfold reload
  split
  · next changed =>
    -- the catalog is loaded again
    apply (catalog_upholds sep h).imp
    rintro r σ' ⟨h', c, l', rfl, lists', encloses⟩
    refine ⟨c, rfl, h'.whole, fun op hop e denied => ?_⟩
    rcases encloses with encloses | created
    · exact absurd denied (not_denied (accepts.allowed op hop) lists' encloses)
    · rw [needs hop denied] at h'
      exact h'.enlarged created
  · next unchanged =>
    -- nothing was written, so what was foreseen is what the catalog lists
    refine ⟨before, rfl, h.whole, fun op hop e denied => ?_⟩
    have needed := needs hop denied
    rw [needed, Bool.true_and, Bool.or_eq_true, not_or, Bool.not_eq_true', Bool.not_eq_false,
      List.isEmpty_iff] at unchanged
    have allowed := accepts.allowed op hop
    rw [Ledger.ahead_eq_self unchanged.1] at allowed
    exact absurd denied (not_denied allowed (lists needed) (.refl l))

/-- The activations of a batch that was foreseen. -/
theorem activatePhase_ends (sep : Scope.Separated U) {policy : RetryPolicy} {i : Nat}
    (used : ∀ op ∈ ops, op.Within U) (accepts : l.Accepts ops)
    (h : σ.Upholds U (ops.any Operation.needsCatalog) (l.ahead ops) i) :
    (activatePhase policy ops).Ends (Interrupted U) (fun r σ' =>
      σ'.Upholds U (ops.any Operation.needsCatalog) (l.ahead ops) i ∧ ∀ e, r = .error e →
        e = .retriesExhausted policy.attempts ∨ (∃ q a b, e = .ambiguousScope q a b) ∧ σ'.Enlarged) σ := by
  have activations : ∀ a ∈ ops.filterMap Operation.activation?, .activate a ∈ ops :=
    fun a => Operation.mem_filterMap_activation?.mp
  have uphold : (Session.collect (activate policy) (ops.filterMap Operation.activation?)).Ends
      (Interrupted U) _ σ :=
    activations_uphold sep (fun a ha => used _ (activations a ha))
      (fun a ha => accepts.allowed _ (activations a ha)) h
  unfold activatePhase
  cases as : ops.filterMap Operation.activation? with
  | nil => exact ⟨h, nofun⟩
  | cons a as' =>
      -- who activates has looked at the records
      have needed : ops.any Operation.needsCatalog = true :=
        List.any_eq_true.mpr ⟨_, activations a (as ▸ List.mem_cons_self), rfl⟩
      rw [as] at uphold
      apply uphold.imp
      rintro r σ' ⟨h', fails⟩
      refine ⟨h', fun e he => (fails e he).imp id (And.imp id fun created => ?_)⟩
      rw [needed] at h'
      exact h'.enlarged created

/-- **What may go wrong in the later phases.** -/
theorem laterPhases_end (sep : Scope.Separated U) (used : ∀ op ∈ ops, op.Within U) {i : Nat}
    {passed : Catalog × List Written} (accepts : l.Accepts ops)
    (lists : ops.any Operation.needsCatalog = true → passed.1.Lists l)
    (h : σ.Upholds U (ops.any Operation.needsCatalog) (l.ahead ops) i) :
    (laterPhases settings ops passed).Ends (Interrupted U) (fun r σ' => ∀ e, r = .error e →
      e = .retriesExhausted settings.retryPolicy.attempts ∨
        (∃ q a b, e = .ambiguousScope q a b) ∧ σ'.Enlarged) σ := by
  apply (activatePhase_ends sep used accepts h).bind
  · rintro rs σ₁ ⟨h₁, -⟩
    apply (reload_ends sep accepts lists h₁).bind
    · rintro c σ₂ ⟨_, ⟨⟩, whole, denied⟩
      have kept : (Session.collect (answer settings.fallback c) ops).Ends (Interrupted U)
          (fun _ σ => σ₂.Enlarged → σ.Enlarged) σ₂ :=
        .of_reads (.collect (answer_reads settings.fallback c) ops) id
          (fun _ _ later h enlarged => (h enlarged).later later)
          fun _ r _ h enlarged => (h enlarged).serve r
      apply ((answers_steadfast sep settings.fallback c accepts.valid σ₂ whole).and kept).bind
      · rintro os σ₃ - _ ⟨⟩
      · rintro e σ₃ ⟨⟨-, failed⟩, kept⟩ _ ⟨⟩
        obtain ⟨op, hop, refused⟩ := failed e rfl
        have enlarged := kept (denied op hop e refused)
        obtain ⟨q, s, -, -, -, conflicts⟩ := refused
        obtain ⟨a, b, rfl⟩ := Catalog.exists_of_checkConflicts conflicts
        exact .inr ⟨⟨s, a, b, rfl⟩, enlarged⟩
    · rintro e σ₂ ⟨_, ⟨⟩, -⟩
  · rintro e σ₁ ⟨-, failed⟩ _ ⟨⟩
    exact failed e rfl

/-! ## Whole batches

A guest that runs the whole batch runs the first part of it on the same schedule, and both parts
keep the ledger that stands behind the table (`Abides`), so what holds of scenes holds at the end of
the guest. -/

theorem firstPhases_abides (sep : Scope.Separated U) (used : ∀ op ∈ ops, op.Within U) (ht : t.Sound U) :
    (firstPhases settings ids ops).Abides (Table.Sound U) t := by
  have within : (Call.write settings.retryPolicy ids (ops.filterMap Operation.assignment?)).Within U :=
    fun a ha => used _ (Operation.mem_filterMap_assignment?.mp ha)
  apply Session.Abides.bind ht (.of_reads (catalogIf_reads _) t)
  intro before t₁ _ ht₁
  apply Session.Abides.bind ht₁ (.of_reads (.done _) t₁)
  intro _ t₂ _ ht₂
  refine .bind ht₂ ?_ fun _ _ _ _ => trivial
  unfold writePhase
  split
  · trivial
  · refine .bind ht₂ ?_ fun _ _ _ _ => trivial
    exact .of_isolated (Call.isolated_write sep within ht₂) fun t r t' commits =>
      commits.2.sound sep within commits.1

theorem laterPhases_abides (sep : Scope.Separated U) (used : ∀ op ∈ ops, op.Within U)
    (passed : Catalog × List Written) (ht : t.Sound U) :
    (laterPhases settings ops passed).Abides (Table.Sound U) t := by
  have activations : (activatePhase settings.retryPolicy ops).Abides (Table.Sound U) t := by
    apply Session.Abides.collect ht
    intro a ha t₁ _ ht₁
    have within : (Call.activate settings.retryPolicy a).Within U :=
      used _ (Operation.mem_filterMap_activation?.mp ha)
    exact .of_isolated (Call.isolated_activate sep within ht₁) fun t r t' commits =>
      commits.2.sound sep within commits.1
  apply activations.bind ht
  intro _ t₁ _ ht₁
  apply Session.Abides.bind ht₁ (.of_reads (reload_reads passed.1 ops) t₁)
  intro c t₂ _ ht₂
  apply Session.Abides.bind ht₂ (.of_reads (.collect (answer_reads settings.fallback c) ops) t₂)
  exact fun _ _ _ _ => trivial

end Store

namespace System

variable {ι : Type} [DecidableEq ι]

/-- **What can still fail after the first phases of a batch.** Once the check ahead has passed and the
assignments have been written, whatever other handles do between its requests, a batch can only give up
activating under contention or find a scope ambiguous; and that only if somebody else has recorded a
scope since it looked at the records. -/
theorem late_failures (sep : Scope.Separated U) (moves : List (Move ι))
    (schedule : List (Option (Move ι)))
    (within : ∀ h c, .call h c ∈ moves → c.Within U ∧ c.Fits)
    (among : ∀ h c, some (.call h c) ∈ schedule → c.Within U ∧ c.Fits) (settings : Settings)
    (ids : Nat → BatchId) (ops : List Operation) (used : ∀ op ∈ ops, op.Within U)
    (fits : ∀ op ∈ ops, op.Fits)
    (passed : ∃ first,
      (Guest.run (run moves) (firstPhases settings ids ops) schedule).rest = .done (.ok first))
    (g : Guest ι (List Outcome)) (goes : g = Guest.run (run moves) (execute settings ids ops) schedule)
    (roomy : ∀ k ∈ g.host.log, k.before.Roomy) (met : ∀ v ∈ g.stops, v.table.Roomy) (e : StoreError)
    (ended : g.rest = .done (.error e)) :
    e = .retriesExhausted settings.retryPolicy.attempts ∨
      (∃ q a b, e = .ambiguousScope q a b) ∧ g.scene.Enlarged := by
  obtain ⟨first, passed⟩ := passed
  rw [execute_eq_phases] at goes
  subst goes
  obtain ⟨log, -⟩ := Guest.prefix_foldl
    ⟨run moves, (firstPhases settings ids ops).bind (laterPhases settings ops), []⟩ schedule
  have within' : ∀ h c, .call h c ∈ moves → c.Within U := fun h c hc => (within h c hc).1
  have storable := run_each moves fun h c hc => (within h c hc).2
  have stored := (Guest.foldl_each (g := ⟨run moves, (firstPhases settings ids ops).bind
    (laterPhases settings ops), []⟩) storable fun h c hc => (among h c hc).2).2
  -- the batch starts on a coherent ledger
  have lively := run_lively sep moves within'
  obtain ⟨replies, l, traced⟩ := run_traced sep moves within'
  have coherent : l.Coherent :=
    traced.trace.coherent sep storable.2 fun k hk => roomy k (log.subset hk)
  have ends : (firstPhases settings ids ops).Ends (Interrupted U) _
      ⟨(run moves).table, (run moves).log, []⟩ :=
    firstPhases_uphold sep used fits ⟨l, traced.trace.depicts, coherent⟩ rfl
  obtain ⟨σ, later, fails⟩ := Guest.run_andThen_ends sep lively
    (firstPhases_abides sep used lively.sound)
    (fun passed t ht => laterPhases_abides sep used passed ht) (fun h c hc => (among h c hc).1)
    (fun k hk => ⟨roomy k hk, stored k hk⟩) met ends
    (fun passed σ upholds => by
      obtain ⟨l, i, accepts, lists, h⟩ := upholds passed rfl
      exact laterPhases_end sep used accepts lists h)
    passed ended
  rcases fails e rfl with exhausted | ⟨ambiguous, enlarged⟩
  · exact .inl exhausted
  · exact .inr ⟨ambiguous, enlarged.later later⟩

/-- Two scopes, neither of them inside of the other. -/
def Fork (s : Scope) : Prop := s = ⟨[("env", "prod")]⟩ ∨ s = ⟨[("region", "eu")]⟩

instance : DecidablePred Fork := fun s =>
  inferInstanceAs (Decidable (s = ⟨[("env", "prod")]⟩ ∨ s = ⟨[("region", "eu")]⟩))

theorem separated_fork : Scope.Separated Fork := by
  apply Scope.separated_pair
  · exact ⟨⟨by simp, by simp⟩, by decide, by simp; decide, by simp; decide⟩
  · exact ⟨⟨by simp, by simp⟩, by decide, by simp; decide, by simp; decide⟩
  · decide +kernel

/-- A batch that sets a property in one of them, and reads it where both of them count. -/
def forked : List Operation :=
  [.assign ⟨"limit", .integer 1, [⟨"env", .exactly "prod"⟩]⟩,
    .read ⟨"limit", [⟨"env", .exactly "prod"⟩, ⟨"region", .exactly "eu"⟩], none⟩]

/-- After the write of the batch another handle records the other scope. -/
def forking : List (Option (Move Bool)) :=
  [none, none, none,
    some (.call false (.write (.immediate 1) (.stamped 1)
      [⟨"limit", .integer 2, [⟨"region", .exactly "eu"⟩]⟩])),
    some (.serve false), some (.serve false), none]

theorem forked_enlarged :
    (Guest.run (run []) (execute {} (.stamped 0) forked) forking).scene.Enlarged := by
  have passed : (Guest.run (run []) (firstPhases {} (.stamped 0) forked) forking).rest.result?.any
      Except.isOk := by decide +kernel
  have room : ∀ k ∈ (Guest.run (run []) (execute {} (.stamped 0) forked) forking).host.log,
      k.before.hasRoom := by decide +kernel
  have met : ∀ v ∈ (Guest.run (run []) (execute {} (.stamped 0) forked) forking).stops,
      v.table.hasRoom := by decide +kernel
  have failed : (Guest.run (run []) (execute {} (.stamped 0) forked) forking).rest.result? =
      some (.error (.ambiguousScope ⟨[("env", "prod"), ("region", "eu")]⟩ ⟨[("region", "eu")]⟩
        ⟨[("env", "prod")]⟩)) := by decide +kernel
  have late := late_failures separated_fork [] forking (fun _ _ hc => absurd hc List.not_mem_nil)
    (Guest.forall_call_iff.mpr (by decide +kernel)) {} (.stamped 0) forked (by decide +kernel)
    (by decide +kernel) (Session.exists_done_of_result? passed) _ rfl
    (fun k hk => Table.roomy_of_hasRoom (room k hk)) (fun v hv => Table.roomy_of_hasRoom (met v hv))
    _ (Session.result?_eq_some_iff.mp failed)
  rcases late with exhausted | ⟨-, enlarged⟩
  · cases exhausted
  · exact enlarged

end System

end ScopedConfig
