import ScopedConfig.Proofs.Snapshots

/-!
# Writes are hidden until they are activated

Reads without a revision see the active revisions of the recorded scopes, and a write moves none of
them. It takes revisions above them, and a scope that it records has none yet. So the ledger after
some writes shows what it showed before (`Ledger.Hides`), and whatever a listing or a read finds is
found afterwards in the same way (`Veiled.list_matches`, `Veiled.firstHit_matches`).

Whether a read is ambiguous is another matter, since a scope counts from the moment at which it is
recorded. `System.writes_stay_hidden` therefore leaves reads the way to become ambiguous, where a new
scope gives the reason.
-/

namespace ScopedConfig

open Layout Store

/-- Whether a call decides what reads see. -/
def Call.publishes : Call → Bool
  | .activate .. | .setActive .. => true
  | .write .. | .advance .. => false

/-! ## Ledgers

`Hides` is to what reads show as `Keeps` is to what is written. An advance or a batch leaves the
active revisions, so nothing else is shown; but it may record a scope, and that is one more scope to
conflict with. -/

namespace Ledger

variable {l l' l'' : Ledger}

/-- What the first ledger has written is written in the second one too, which shows no more than the
first one does. -/
structure Hides (l l' : Ledger) : Prop extends l.Keeps l' where
  shown : ∀ s, l'.shown s = l.shown s

namespace Hides

theorem refl (l : Ledger) : l.Hides l := ⟨.refl l, fun _ => rfl⟩

theorem trans (h : l.Hides l') (h' : l'.Hides l'') : l.Hides l'' := by
  refine ⟨h.toKeeps.trans h'.toKeeps, fun s => ?_⟩
  rw [h'.shown, h.shown]

/-- An ambiguous query stays ambiguous. -/
theorem unambiguous (h : l.Hides l') {q : Scope} (after : l'.Unambiguous q) : l.Unambiguous q := by
  have recorded (s : Scope) (hs : l.pointers s ≠ none) : l'.pointers s ≠ none := by
    obtain ⟨p, hp⟩ := Option.ne_none_iff_exists'.mp hs
    obtain ⟨p', hp', -⟩ := h.pointers s p hp
    exact Option.ne_none_iff_exists'.mpr ⟨p', hp'⟩
  intro a b ha hb
  exact after a b (recorded a ha) (recorded b hb)

end Hides

/-- A query that becomes ambiguous includes a scope that was not recorded. -/
theorem exists_new {q : Scope} (before : l.Unambiguous q) (after : ¬ l'.Unambiguous q) :
    ∃ s, l.pointers s = none ∧ l'.pointers s ≠ none ∧ s.within q := by
  by_contra none
  have recorded (s : Scope) (hs : l'.pointers s ≠ .none) (within : s.within q) :
      l.pointers s ≠ .none := fun absent => none ⟨s, absent, hs, within⟩
  apply after
  intro a b ha hb haq hbq
  exact before a b (recorded a ha haq) (recorded b hb hbq) haq hbq

/-- **What does not publish is hidden.** -/
theorem hides_of_serves (roomy : l.Roomy) {c : Call} {r : Reply} (hidden : c.publishes = false)
    (serves : l.Serves c r l') : l.Hides l' := by
  refine ⟨keeps_of_serves roomy serves, fun s => ?_⟩
  cases serves.answeredBy with
  | write policy ids assignments r =>
      obtain ⟨placed, n, -, -, rfl⟩ := serves
      unfold shown
      rw [pointers_write]
      -- the pointers of a batch keep which revision is active, and a new scope has none
      split <;> rfl
  | advance policy q n =>
      obtain ⟨-, rfl⟩ := serves
      unfold shown
      rw [pointers_advance]
      split
      · next eq =>
        rw [eq]
        rfl
      · rfl
  | activate | setActive => cases hidden

end Ledger

/-! ## Sessions that match

Two sessions match if each, undisturbed on its own table, comes to the same result. As neither
changes its table, a look-up or a loop matches if its parts do. -/

namespace Session

variable {α β : Type} {t t' : Table} {x x' : Session α} {f f' : α → Session β}

/-- The one session comes on the one table to what the other one comes to on the other table, and
neither changes its table. -/
def Matches (x : Session α) (t : Table) (x' : Session α) (t' : Table) : Prop :=
  ∃ result, x.run t = (result, t) ∧ x'.run t' = (result, t')

namespace Matches

theorem done (result : Except StoreError α) : (Session.done result).Matches t (.done result) t' :=
  ⟨result, rfl, rfl⟩

theorem bind (h : x.Matches t x' t') (hf : ∀ a, (f a).Matches t (f' a) t') :
    (x.bind f).Matches t (x'.bind f') t' := by
  obtain ⟨result, run, run'⟩ := h
  cases result with
  | error e => exact ⟨.error e, run_bind_of_error run, run_bind_of_error run'⟩
  | ok a =>
      obtain ⟨result, runs, runs'⟩ := hf a
      exact ⟨result, (run_bind_of_ok run).trans runs, (run_bind_of_ok run').trans runs'⟩

theorem composable : Composable fun _ x => x.Matches t x t' where
  done a := done (.ok a)
  bind := bind

/-- Sessions that go on alike after different answers. -/
theorem bind_of_ok {a a' : α} (run : x.run t = (.ok a, t)) (run' : x'.run t' = (.ok a', t'))
    (hf : (f a).Matches t (f' a') t') : (x.bind f).Matches t (x'.bind f') t' := by
  obtain ⟨result, runs, runs'⟩ := hf
  exact ⟨result, (run_bind_of_ok run).trans runs, (run_bind_of_ok run').trans runs'⟩

end Matches

/-- Undisturbed, the session fails with no other errors. -/
def FailsOnly (E : StoreError → Prop) (x : Session α) : Prop :=
  ∀ t t' e, x.run t = (.error e, t') → E e

theorem FailsOnly.composable {E : StoreError → Prop} : Composable fun _ x => x.FailsOnly E where
  done a := by
    intro t t' e run
    cases run
  bind := by
    intro α β x f hx hf t t' e run
    cases first : x.run t with
    | mk result mid =>
        cases result with
        | error e' =>
            rw [run_bind_of_error first] at run
            cases run
            exact hx t t' e first
        | ok a =>
            rw [run_bind_of_ok first] at run
            exact hf a mid t' e run

end Session

/-! ## What a catalog shows

A record whose working revision is replaced by the active one (`ScopeRecord.shown?`) is all that a
read without a revision sees of it. A listing selects, sorts and reads, and lists the same if this is
done to all records beforehand. -/

/-- A record as reads without a revision see it, if they do. -/
def ScopeRecord.shown? (r : ScopeRecord) : Option ScopeRecord :=
  r.active.map fun n => { r with working := n }

theorem ScopeRecord.shown?_eq_some_iff {r q : ScopeRecord} :
    r.shown? = some q ↔ q.scope = r.scope ∧ q.active = r.active ∧ r.active = some q.working := by
  obtain ⟨scope, working, active⟩ := r
  obtain ⟨scope', working', active'⟩ := q
  cases active with
  | none => simp [shown?]
  | some n => grind [shown?]

theorem Store.readEach_shown (name : String) (rs : List ScopeRecord) :
    readEach name (rs.filterMap ScopeRecord.shown?) = readEach name rs := by
  induction rs with
  | nil => rfl
  | cons r rs ih =>
      obtain ⟨scope, working, active⟩ := r
      cases active with
      | none =>
          rw [readEach_cons_of_inactive rfl]
          exact ih
      | some n =>
          show readEach name (⟨scope, n, some n⟩ :: rs.filterMap ScopeRecord.shown?) = _
          rw [readEach_cons_of_active rfl, readEach_cons_of_active rfl, ih]

/-- What is selected from records in the order of how their scopes are written stands in that order. -/
theorem Store.filterMap_sortBy_text {f : ScopeRecord → Option ScopeRecord}
    (keeps : ∀ {r q}, f r = some q → q.scope = r.scope) (rs : List ScopeRecord) :
    (sortBy (fun r q => r.scope.text ≤ q.scope.text) rs).filterMap f =
      sortBy (fun r q => r.scope.text ≤ q.scope.text) (rs.filterMap f) :=
  filterMap_sortBy (fun r q => by simpa using String.le_total r.scope.text q.scope.text)
    (fun r q u => by simpa using String.le_trans)
    (fun r q r' q' hr hq => by rw [keeps hr, keeps hq]) rs

/-- **What a listing reads is selected from what is shown.** -/
theorem Store.admitted_shown (c : Catalog) (filter : Filter) (coverage : Coverage) :
    (admitted c filter coverage).filterMap ScopeRecord.shown? =
      admitted ⟨c.records.filterMap ScopeRecord.shown?⟩ filter coverage := by
  have scope {r q : ScopeRecord} (h : r.shown? = some q) : q.scope = r.scope :=
    (ScopeRecord.shown?_eq_some_iff.mp h).1
  rw [admitted, filterMap_sortBy_text scope, admitted, List.filterMap_filter, List.filter_filterMap]
  congr 1
  apply List.filterMap_congr
  intro r _
  cases hr : r.shown? with
  | none => simp
  | some q =>
      show _ = if filter.admits coverage q.scope then some q else none
      rw [scope hr]

namespace Catalog.Lists

variable {c : Catalog} {l : Ledger} {s : Scope}

/-- The records shown are told by the ledger, whatever the working revisions. -/
theorem mem_shown_iff (h : c.Lists l) {q : ScopeRecord} :
    q ∈ c.records.filterMap ScopeRecord.shown? ↔
      l.shown q.scope = some q.working ∧ q.active = some q.working := by
  rw [List.mem_filterMap]
  constructor
  · rintro ⟨r, hr, eq⟩
    obtain ⟨scope, active, shown⟩ := ScopeRecord.shown?_eq_some_iff.mp eq
    refine ⟨?_, active.trans shown⟩
    rw [Ledger.shown, scope, (h.mem r).mp hr]
    exact shown
  · rintro ⟨shown, active⟩
    obtain ⟨p, hp, hn⟩ := Option.bind_eq_some_iff.mp shown
    refine ⟨p.record q.scope, (h.mem _).mpr hp, ScopeRecord.shown?_eq_some_iff.mpr ⟨rfl, ?_, hn⟩⟩
    exact active.trans hn.symm

/-- What is found depends on what the ledger shows of the scopes, and on no more of the catalog. -/
theorem firstHit_eq {c' : Catalog} {l' : Ledger} (h : c.Lists l) (h' : c'.Lists l')
    (same : ∀ s, l'.shown s = l.shown s) (name : String) {scopes : List Scope}
    (wf : ∀ s ∈ scopes, s.WellFormed) : firstHit c' name scopes = firstHit c name scopes := by
  induction scopes with
  | nil => rfl
  | cons s rest ih =>
      obtain ⟨hs, wf⟩ := List.forall_mem_cons.mp wf
      -- Either catalog goes by the active revision of the scope, which the ledgers have in common.
      have active : (c'.find? s).bind ScopeRecord.active = (c.find? s).bind ScopeRecord.active := by
        rw [h.find?_bind_active hs, h'.find?_bind_active hs, same]
      cases shown : (c.find? s).bind ScopeRecord.active with
      | none => rw [firstHit_cons_of_inactive shown, firstHit_cons_of_inactive (active.trans shown), ih wf]
      | some n =>
          obtain ⟨r, find, hn⟩ := Option.bind_eq_some_iff.mp shown
          obtain ⟨r', find', hn'⟩ := Option.bind_eq_some_iff.mp (active.trans shown)
          rw [firstHit_cons_of_active find hn, firstHit_cons_of_active find' hn', ih wf,
            h.scope_of_find? hs find, h'.scope_of_find? hs find']

end Catalog.Lists

namespace Table.Depicts

variable {U : Scope → Prop} {t : Table} {l : Ledger}

theorem filed (sep : Scope.Separated U) (h : t.Depicts U l) (orderly : l.Orderly) : t.Filed where
  key := h.key_cases
  entry name i n stored hs := by
    obtain ⟨s, e, used, rfl, he, -⟩ := h.exists_of_entryKey hs
    obtain ⟨p, hp, positive, written⟩ := orderly.entry _ _ _ _ he
    rw [working_eq (h.record?_eq sep hp)]
    exact ⟨Revision.one_le_iff.mpr positive, written⟩

/-- All records, in the order of their keys. -/
theorem sorted_catalog (sep : Scope.Separated U) (h : t.Depicts U l) {c : Catalog} {t' : Table}
    (run : catalog.run t = (.ok c, t')) :
    c.records.Pairwise fun r q => recordKey r.scope.id < recordKey q.scope.id := by
  have run : ((Session.done (decodeRecords (t.scan recordPrefix))).bind fun records =>
      .done (.ok (⟨records⟩ : Catalog))).run t = (.ok c, t') := run
  obtain ⟨records, decoded, done⟩ := Session.run_done_bind_eq_ok.mp run
  cases done
  have sorted : ((t.scan recordPrefix).map Prod.fst).Pairwise (· < ·) :=
    List.pairwise_map.mpr (t.sorted_scan recordPrefix)
  rw [← h.catalog_keys sep decoded] at sorted
  exact List.pairwise_map.mp sorted

end Table.Depicts

/-! ## Tables with more written

Under `Veiled` the first table depicts what the second one hides more behind. Look-ups at shown
revisions match, and so do the searches and loops made of them. -/

/-- The second table has more written than the first one, and shows the same. -/
structure Veiled (U : Scope → Prop) (t t' : Table) (l l' : Ledger) : Prop where
  earlier : t.Depicts U l
  later : t'.Depicts U l'
  orderly : l.Orderly
  orderly' : l'.Orderly
  hides : l.Hides l'

namespace Veiled

variable {U : Scope → Prop} {t t' : Table} {l l' : Ledger} {c c' : Catalog} {s : Scope}
  {n : Revision} {name : String}

/-- A look-up at a revision that is shown. -/
theorem entryAsOf_matches (sep : Scope.Separated U) (h : Veiled U t t' l l')
    (shown : l.shown s.canonical = some n) :
    (entryAsOf name s n).Matches t (entryAsOf name s n) t' := by
  have written := h.earlier.shown_le_working sep h.orderly shown
  have keeps := h.earlier.keeps sep h.later h.hides.toKeeps
  have filed := h.earlier.filed sep h.orderly
  have filed' := h.later.filed sep h.orderly'
  refine ⟨_, entryAsOf_run name s n t, ?_⟩
  rw [entryAsOf_run, keeps.floor_eq filed filed' written]

/-- **A read finds what it found before.** -/
theorem firstHit_matches (sep : Scope.Separated U) (h : Veiled U t t' l l') (lists : c.Lists l)
    (lists' : c'.Lists l') {scopes : List Scope} (wf : ∀ s ∈ scopes, s.WellFormed) :
    (firstHit c name scopes).Matches t (firstHit c' name scopes) t' := by
  rw [lists.firstHit_eq lists' h.hides.shown name wf]
  apply Session.Matches.composable.firstHit
  intro s hs n active
  rw [lists.find?_bind_active (wf s hs)] at active
  exact h.entryAsOf_matches sep active

theorem readEach_matches (sep : Scope.Separated U) (h : Veiled U t t' l l') {rs : List ScopeRecord}
    (shown : ∀ r ∈ rs, ∀ n, r.active = some n → l.shown r.scope.canonical = some n) :
    (readEach name rs).Matches t (readEach name rs) t' := by
  apply Session.Matches.composable.readEach
  intro r hr n active
  exact h.entryAsOf_matches sep (shown r hr n active)

/-- The catalogs of both tables show the same records in the same order. -/
theorem shown_eq (sep : Scope.Separated U) (h : Veiled U t t' l l') (lists : c.Lists l)
    (lists' : c'.Lists l') (run : catalog.run t = (.ok c, t)) (run' : catalog.run t' = (.ok c', t')) :
    c'.records.filterMap ScopeRecord.shown? = c.records.filterMap ScopeRecord.shown? := by
  have sorted {rs : List ScopeRecord}
      (sorted : rs.Pairwise fun r q => recordKey r.scope.id < recordKey q.scope.id) :
      (rs.filterMap ScopeRecord.shown?).Pairwise fun r q =>
        recordKey r.scope.id < recordKey q.scope.id := by
    apply List.Pairwise.filterMap _ _ sorted
    intro r q lt r' hr q' hq
    rw [(ScopeRecord.shown?_eq_some_iff.mp hr).1, (ScopeRecord.shown?_eq_some_iff.mp hq).1]
    exact lt
  -- Two lists in the order of their keys are one if they have the same members.
  apply Table.eq_of_mem_iff_of_keys (sorted (h.later.sorted_catalog sep run'))
    (sorted (h.earlier.sorted_catalog sep run))
  intro r
  rw [lists.mem_shown_iff, lists'.mem_shown_iff, h.hides.shown]

/-- **A listing lists what it listed before.** -/
theorem list_matches (sep : Scope.Separated U) (h : Veiled U t t' l l') (lists : c.Lists l)
    (lists' : c'.Lists l') (run : catalog.run t = (.ok c, t)) (run' : catalog.run t' = (.ok c', t'))
    (filter : Filter) (coverage : Coverage) :
    (list c name filter coverage).Matches t (list c' name filter coverage) t' := by
  unfold list
  rw [← readEach_shown, ← readEach_shown _ (admitted c' _ _), admitted_shown, admitted_shown,
    h.shown_eq sep lists lists' run run']
  apply h.readEach_matches sep
  intro r hr n hn
  have mem := (List.mem_filter.mp ((sortBy_perm _ _).mem_iff.mp hr)).1
  obtain ⟨shown, active⟩ := lists.mem_shown_iff.mp mem
  cases hn.symm.trans active
  -- what is shown is recorded, and recorded scopes are in canonical form
  have recorded : l.pointers r.scope ≠ none := by
    intro absent
    rw [Ledger.shown, absent] at shown
    cases shown
  rwa [(lists.wellFormed r.scope recorded).2]

end Veiled

/-! ## Batches of one read

The operations of the statement are batches of their own, so these are written out, with what can go
wrong in them on a table that depicts a ledger. -/

namespace Store

/-- Nothing but an entry that cannot be decoded keeps a look-up from answering. -/
theorem entryOf_error {pre : String} {found : Option Row} {e : StoreError}
    (h : entryOf pre found = .error e) : e = .undecodable := by
  unfold entryOf at h
  split at h
  · cases h
  · next row =>
    split at h
    · rw [decodeEntry] at h
      cases unpack : Entry.unpack? row.2.value with
      | none =>
          rw [unpack] at h
          cases h
          rfl
      | some entry =>
          rw [unpack] at h
          cases h
    · cases h

theorem entryAsOf_failsOnly (name : String) (s : Scope) (n : Revision) :
    (entryAsOf name s n).FailsOnly (· = .undecodable) := by
  intro t t' e h
  rw [entryAsOf_run, Prod.mk.injEq] at h
  exact entryOf_error h.1

theorem firstHit_failsOnly (c : Catalog) (name : String) (scopes : List Scope) :
    (firstHit c name scopes).FailsOnly (· = .undecodable) :=
  Session.FailsOnly.composable.firstHit fun s _ n _ => entryAsOf_failsOnly name s n

/-- A batch of one read of what is active. -/
theorem execute_current_eq (settings : Settings) (ids : Nat → BatchId) (name : String)
    (params : List Parameter) :
    execute settings ids [.read ⟨name, params, none⟩] =
      catalog.bind fun c => (Session.done (scopeOf params)).bind fun s =>
      (Session.done (c.checkConflicts s)).bind fun _ =>
      (firstHit c name (candidates settings.fallback s)).bind fun hit =>
      .done (.ok [.value ⟨name, s, hit⟩]) := by
  rw [execute_eq_of_reads settings ids (by simp [Operation.isRead])]
  show catalog.bind _ = catalog.bind _
  congr 1
  funext c
  rw [preflight_of_isRead c rfl, check, Session.collect_singleton_bind, answer]
  cases scopeOf params with
  | error e => rfl
  | ok s =>
      show (Session.done (c.checkConflicts s)).bind _ = (Session.done (c.checkConflicts s)).bind _
      cases hc : c.checkConflicts s with
      | error e => rfl
      | ok u =>
          show ((((Session.done (c.checkConflicts s)).bind _).bind _).bind _) = _
          rw [hc]
          show (((firstHit c name _).bind _).bind _).bind _ = (firstHit c name _).bind _
          rw [Session.bind_assoc, Session.bind_assoc]
          rfl

/-- A batch of one listing. -/
theorem execute_list_eq (settings : Settings) (ids : Nat → BatchId) (q : ListQuery) :
    execute settings ids [.list q] =
      catalog.bind fun c =>
      (Session.done ((Filter.ofParameters q.filter).mapError StoreError.input)).bind fun filter =>
      (list c q.name filter q.coverage).bind fun readings => .done (.ok [.listed readings]) := by
  rw [execute_eq_of_reads settings ids (by simp [Operation.isRead])]
  show catalog.bind _ = catalog.bind _
  congr 1
  funext c
  rw [preflight_of_isRead c rfl, check, Session.collect_singleton_bind, answer]
  cases (Filter.ofParameters q.filter).mapError StoreError.input with
  | error e => rfl
  | ok filter =>
      show (((list c q.name filter q.coverage).bind _).bind _) = _
      rw [Session.bind_assoc]
      rfl

end Store

/-! ## What becomes of reads

A listing has no check that new scopes could fail. A read has one, and here the two cases of the
statement part: it passes on both tables and matches, or it has become ambiguous, by a scope that is
new. -/

/-- Between the two tables a scope was recorded that the query includes. -/
def Table.NewWithin (t t' : Table) (query : Scope) : Prop :=
  ∃ i r, t.get? (recordKey i) = none ∧ t'.HasRecord i r ∧ r.scope.within query

namespace Veiled

variable {U : Scope → Prop} {t t' : Table} {l l' : Ledger}

theorem newWithin (sep : Scope.Separated U) (h : Veiled U t t' l l') {q : Scope}
    (before : l.Unambiguous q) (after : ¬ l'.Unambiguous q) : t.NewWithin t' q := by
  obtain ⟨c, absent, recorded, within⟩ := Ledger.exists_new before after
  obtain ⟨s, used, rfl⟩ := h.later.pointers c recorded
  obtain ⟨p, hp⟩ := Option.ne_none_iff_exists'.mp recorded
  refine ⟨s.id, p.record s.canonical, (h.earlier.get?_recordKey_eq_none_iff used).mpr absent, ?_, within⟩
  exact (h.later.hasRecord_iff sep).mpr ⟨s, p, used, rfl, hp, rfl⟩

/-- **A listing is what it was.** -/
theorem execute_list (sep : Scope.Separated U) (h : Veiled U t t' l l') (settings : Settings)
    (ids : Nat → BatchId) (q : ListQuery) :
    (execute settings ids [.list q]).Matches t (execute settings ids [.list q]) t' := by
  obtain ⟨c, run, lists⟩ := h.earlier.catalog_run sep
  obtain ⟨c', run', lists'⟩ := h.later.catalog_run sep
  rw [execute_list_eq]
  apply Session.Matches.bind_of_ok run run'
  apply (Session.Matches.done _).bind
  intro filter
  apply (h.list_matches sep lists lists' run run' filter q.coverage).bind
  intro readings
  exact .done _

/-- **A read is what it was, or it has become ambiguous.** -/
theorem execute_current (sep : Scope.Separated U) (h : Veiled U t t' l l') (settings : Settings)
    (ids : Nat → BatchId) (name : String) (params : List Parameter) :
    ∃ r r', (execute settings ids [.read ⟨name, params, none⟩]).run t = (r, t) ∧
      (execute settings ids [.read ⟨name, params, none⟩]).run t' = (r', t') ∧
      (∀ s a b, r = .error (.ambiguousScope s a b) →
        ∃ a' b', r' = .error (.ambiguousScope s a' b')) ∧
      ((∀ s a b, r ≠ .error (.ambiguousScope s a b)) → r' = r ∨ ∃ s a b, scopeOf params = .ok s ∧
        r' = .error (.ambiguousScope s a b) ∧ t.NewWithin t' s) := by
  obtain ⟨c, run, lists⟩ := h.earlier.catalog_run sep
  obtain ⟨c', run', lists'⟩ := h.later.catalog_run sep
  rw [execute_current_eq, Session.run_bind_of_ok run, Session.run_bind_of_ok run']
  cases hs : scopeOf params with
  | error e => exact ⟨.error e, .error e, rfl, rfl, fun _ a b eq => ⟨a, b, eq⟩, fun _ => .inl rfl⟩
  | ok s =>
      show ∃ r r', ((Session.done (c.checkConflicts s)).bind _).run t = (r, t) ∧
        ((Session.done (c'.checkConflicts s)).bind _).run t' = (r', t') ∧ _
      cases before : c.checkConflicts s with
      | error e =>
          obtain ⟨a, b, rfl⟩ := Catalog.exists_of_checkConflicts before
          cases after : c'.checkConflicts s with
          | ok u =>
              have passes := lists.checkConflicts_eq_ok_iff.mpr
                (h.hides.unambiguous (lists'.checkConflicts_eq_ok_iff.mp after))
              cases before.symm.trans passes
          | error e' =>
              obtain ⟨a', b', rfl⟩ := Catalog.exists_of_checkConflicts after
              refine ⟨_, _, rfl, rfl, ?_, fun no => absurd rfl (no s a b)⟩
              rintro _ _ _ ⟨⟩
              exact ⟨a', b', rfl⟩
      | ok u =>
          -- what the read would find is the same in either table
          have wf : ∀ r ∈ candidates settings.fallback s, r.WellFormed :=
            wellFormed_of_mem_candidates (wellFormed_of_scopeOf hs)
          obtain ⟨found, finds, finds'⟩ : (firstHit c name (candidates settings.fallback s)).Matches t
            (firstHit c' name (candidates settings.fallback s)) t' :=
            h.firstHit_matches sep lists lists' wf
          cases after : c'.checkConflicts s with
          | error e =>
              obtain ⟨a, b, rfl⟩ := Catalog.exists_of_checkConflicts after
              have became : ¬ l'.Unambiguous s := by
                intro unambiguous
                cases after.symm.trans (lists'.checkConflicts_eq_ok_iff.mpr unambiguous)
              have created := h.newWithin sep (lists.checkConflicts_eq_ok_iff.mp before) became
              cases found with
              | error e =>
                  obtain rfl := firstHit_failsOnly _ _ _ _ _ _ finds
                  have reads := Session.run_bind_of_error (f := fun hit => .done (.ok [Outcome.value ⟨name, s, hit⟩])) finds
                  refine ⟨_, _, reads, rfl, ?_, fun _ => .inr ⟨s, a, b, rfl, rfl, created⟩⟩
                  rintro _ _ _ ⟨⟩
              | ok hit =>
                  have reads := Session.run_bind_of_ok (f := fun hit => .done (.ok [Outcome.value ⟨name, s, hit⟩])) finds
                  refine ⟨_, _, reads, rfl, ?_, fun _ => .inr ⟨s, a, b, rfl, rfl, created⟩⟩
                  rintro _ _ _ ⟨⟩
          | ok u' =>
              obtain ⟨r, reads, reads'⟩ := Session.Matches.bind ⟨found, finds, finds'⟩
                fun hit => .done (.ok [Outcome.value ⟨name, s, hit⟩])
              exact ⟨r, r, reads, reads', fun _ a b eq => ⟨a, b, eq⟩, fun _ => .inl rfl⟩

end Veiled

/-! ## Schedules

The commits after the first schedule are all of calls that publish nothing, so the later ledger
hides what they did. -/

namespace System

variable {ι : Type} [DecidableEq ι] {U : Scope → Prop}

/-- **Writes are invisible until they are activated.** After any calls that publish nothing a listing
lists what it listed, and a read finds what it found or has become ambiguous, which takes a new scope
that it includes. Ambiguous reads stay ambiguous. -/
theorem writes_stay_hidden (sep : Scope.Separated U) (moves more : List (Move ι))
    (within : ∀ h c, .call h c ∈ moves ++ more → c.Within U)
    (roomy : ∀ k ∈ (run (moves ++ more)).log, k.before.Roomy)
    (hidden : ∀ k ∈ (run (moves ++ more)).log.drop (run moves).log.length, k.call.publishes = false)
    (settings : Settings) (ids : Nat → BatchId) :
    (∀ q, (execute settings ids [.list q]).Matches (run moves).table
      (execute settings ids [.list q]) (run (moves ++ more)).table) ∧
    ∀ name params, ∃ r r',
      (execute settings ids [.read ⟨name, params, none⟩]).run (run moves).table =
        (r, (run moves).table) ∧
      (execute settings ids [.read ⟨name, params, none⟩]).run (run (moves ++ more)).table =
        (r', (run (moves ++ more)).table) ∧
      (∀ s a b, r = .error (.ambiguousScope s a b) →
        ∃ a' b', r' = .error (.ambiguousScope s a' b')) ∧
      ((∀ s a b, r ≠ .error (.ambiguousScope s a b)) → r' = r ∨ ∃ s a b, scopeOf params = .ok s ∧
        r' = .error (.ambiguousScope s a b) ∧
        (run moves).table.NewWithin (run (moves ++ more)).table s) := by
  have later (k : Commit) (hk : k ∈ (run (moves ++ more)).log.drop (run moves).log.length)
      (l : Ledger) (r : Reply) (l' : Ledger) (depicts : k.before.Depicts U l)
      (serves : l.Serves k.call r l') : l.Hides l' :=
    Ledger.hides_of_serves (depicts.roomy sep (roomy k (List.mem_of_mem_drop hk))) (hidden k hk) serves
  obtain ⟨rs, rs', l, l', first, second, hides⟩ :=
    run_related sep moves more within Ledger.Hides.refl (fun _ _ _ => .trans) later
  have earlier := (log_prefix_run moves more).subset
  have veiled : Veiled U (run moves).table (run (moves ++ more)).table l l' :=
    ⟨first.depicts, second.depicts, first.orderly sep fun k hk => roomy k (earlier hk),
      second.orderly sep roomy, hides⟩
  exact ⟨fun q => veiled.execute_list sep settings ids q,
    fun name params => veiled.execute_current sep settings ids name params⟩

/-- A write that is activated. -/
def published : List (Move Bool) :=
  [.call true (.write (.immediate 1) (.stamped 0) [⟨"limit", .integer 1, []⟩]), .serve true,
    .serve true, .call true (.activate (.immediate 1) ⟨[], none⟩), .serve true, .serve true,
    .serve true, .serve true]

/-- A later write to the same scope and to a new one. -/
def shadow : List (Move Bool) :=
  [.call false (.write (.immediate 1) (.stamped 1)
      [⟨"limit", .integer 2, []⟩, ⟨"limit", .integer 3, [⟨"env", .exactly "prod"⟩]⟩]),
    .serve false, .serve false, .serve false]

theorem shadow_within : ∀ h c, .call h c ∈ published ++ shadow → c.Within Scope.Sample :=
  forall_call_iff.mpr (by decide +kernel)

/-- The later values are not listed. -/
theorem shadow_hidden :
    (execute {} (.stamped 2) [.list ⟨"limit", [], .covering⟩]).run (run (published ++ shadow)).table =
      (.ok [.listed [⟨"limit", .global, some ⟨.global, 1, .integer 1⟩⟩]],
        (run (published ++ shadow)).table) := by
  have few : (run (published ++ shadow)).log.length + 1 < 2 ^ 64 := by
    have short := length_log_run_le (published ++ shadow)
    rw [show (published ++ shadow).length = 12 from rfl] at short
    omega
  obtain ⟨roomy, -⟩ := run_roomy Scope.separated_sample _ shadow_within few
  have hidden : ∀ k ∈ (run (published ++ shadow)).log.drop (run published).log.length,
      k.call.publishes = false := by decide +kernel
  obtain ⟨lists, -⟩ := writes_stay_hidden Scope.separated_sample published shadow shadow_within roomy
    hidden {} (.stamped 2)
  obtain ⟨result, before, after⟩ := lists ⟨"limit", [], .covering⟩
  have found : ((execute {} (.stamped 2) [.list ⟨"limit", [], .covering⟩]).run
      (run published).table).1 =
      .ok [.listed [⟨"limit", .global, some ⟨.global, 1, .integer 1⟩⟩]] := by decide +kernel
  rw [before] at found
  rw [after, show result = _ from found]

end System

end ScopedConfig
