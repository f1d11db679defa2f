import ScopedConfig.Proofs.Sessions
import ScopedConfig.Store.Batch

/-!
# Induction over reads

All that a read asks for is records of scopes and entries of properties, and what it does besides is to
put these look-ups together. Many things are said of reads: that they change nothing, that they answer,
that they find the same on a later table. Each of them holds of sessions that answer at once and goes
through composition (`Session.Composable`), so it holds of a read if it holds of the look-ups that the
read makes.

The functions that read are unfolded here and nowhere else. For each of them there is one lemma, which
asks for the property of no other look-ups than are made: `Composable.firstHit` of those at active
revisions, `Composable.readRecorded` of those at a revision that the record has.
-/

namespace ScopedConfig

open Layout Store

/-- A property of sessions, whatever they answer, that goes through composition. -/
structure Session.Composable (P : ∀ α : Type, Session α → Prop) : Prop where
  /-- Sessions that answer at once have it. -/
  done : ∀ {α : Type} (a : α), P α (.done (.ok a))
  /-- A session that goes on with the answer of another one has it if both have it. -/
  bind : ∀ {α β : Type} {x : Session α} {f : α → Session β}, P α x → (∀ a, P β (f a)) → P β (x.bind f)

/-! ## Reads in terms of their look-ups

Equations of the functions that read, by cases on what decides which look-up comes next. -/

/-- What a floor look-up under a prefix comes to. -/
def entryOf (pre : String) : Option Row → Except StoreError (Option Entry)
  | none => .ok none
  | some row =>
    if (revision? pre row.1).isSome then (decodeEntry row.2.value).map some else .ok none

/-- A look-up of an entry is one floor request, and the rest is a matter of the row that is found.
-/
theorem entryAsOf_eq (name : String) (s : Scope) (n : Revision) :
    entryAsOf name s n = (Session.floor (entryPrefix name s.id) (entryKey name s.id n)).bind
      fun found => .done (entryOf (entryPrefix name s.id) found) := by
  rw [entryAsOf, Session.bind_eq]
  congr
  funext found
  cases found with
  | none => rfl
  | some row =>
      simp only [entryOf]
      split
      · cases decodeEntry row.2.value <;> rfl
      · rfl

theorem entryAsOf_run (name : String) (s : Scope) (n : Revision) (t : Table) :
    (entryAsOf name s n).run t = (entryOf (entryPrefix name s.id)
      (t.floor (entryPrefix name s.id) (entryKey name s.id n)), t) := by
  rw [entryAsOf_eq]
  rfl

namespace Store

variable {c : Catalog} {name : String} {s : Scope} {n : Revision} {record : ScopeRecord}

/-- What a read at a revision does once it knows the record of the scope. -/
def readRecorded (name : String) (s : Scope) (n : Revision) : Option ScopeRecord → Session Reading
  | none => .done (.ok ⟨name, s, none⟩)
  | some record =>
    if record.hasRevision n then
      (entryAsOf name s n).bind fun entry => .done (.ok ⟨name, s, entry.map (hitOf record.scope)⟩)
    else .done (.ok ⟨name, s, none⟩)

/-- A read at a revision loads the record first, and goes on by what it finds. -/
theorem readAt_eq (name : String) (s : Scope) (n : Revision) :
    readAt name s n = (recordOf s).bind (readRecorded name s n) := rfl

/-- A scope without an active revision is passed over without a request. -/
theorem firstHit_cons_of_inactive (inactive : (c.find? s).bind ScopeRecord.active = none)
    (rest : List Scope) : firstHit c name (s :: rest) = firstHit c name rest := by
  rw [firstHit]
  cases find : c.find? s with
  | none => rfl
  | some record =>
      rw [find] at inactive
      have inactive : record.active = none := inactive
      simp only [inactive]

theorem firstHit_cons_of_active (find : c.find? s = some record) (active : record.active = some n)
    (rest : List Scope) :
    firstHit c name (s :: rest) = (entryAsOf name s n).bind fun
      | some entry => .done (.ok (some (hitOf record.scope entry)))
      | none => firstHit c name rest := by
  rw [firstHit, find]
  simp only [active]
  rfl

/-- So is a record without one. -/
theorem readEach_cons_of_inactive (inactive : record.active = none) (rest : List ScopeRecord) :
    readEach name (record :: rest) = readEach name rest := by
  rw [readEach, inactive]

theorem readEach_cons_of_active (active : record.active = some n) (rest : List ScopeRecord) :
    readEach name (record :: rest) = (entryAsOf name record.scope n).bind fun entry =>
      (readEach name rest).bind fun readings =>
        .done (.ok ((entry.map fun entry =>
          ⟨name, record.scope, some (hitOf record.scope entry)⟩).toList ++ readings)) := by
  rw [readEach, active]
  simp only [Session.bind_eq]
  congr
  funext entry
  cases entry <;> rfl

end Store

/-! ## What goes through composition

The composites of the store follow by their shape: `collect` is a chain of `bind`, and so is
everything that is made with it. -/

namespace Session.Composable

variable {P : ∀ α : Type, Session α → Prop} {α β : Type} {c : Catalog} {name : String} {s : Scope}
  {n : Revision}

theorem collect (h : Composable P) {f : α → Session β} {as : List α} (each : ∀ a ∈ as, P β (f a)) :
    P (List β) (Session.collect f as) := by
  induction as with
  | nil => exact h.done []
  | cons a as ih =>
      obtain ⟨first, rest⟩ := List.forall_mem_cons.mp each
      apply h.bind first
      intro b
      apply h.bind (ih rest)
      intro bs
      exact h.done (b :: bs)

/-! ### Reads

The look-ups that a read makes depend on the catalog and on what has been answered before. Each
lemma asks for the property at just those that may be made. -/

theorem recordOf (h : Composable P) (loads : P Loaded (load s)) :
    P (Option ScopeRecord) (Store.recordOf s) :=
  h.bind loads fun _ => h.done _

/-- A look-up is made only at a revision that the record has. -/
theorem readRecorded (h : Composable P) {found : Option ScopeRecord}
    (entry : ∀ record, found = some record → record.hasRevision n →
      P (Option Entry) (entryAsOf name s n)) : P Reading (Store.readRecorded name s n found) := by
  unfold Store.readRecorded
  split
  · exact h.done _
  · next record =>
    split
    · next known => exact h.bind (entry record rfl known) fun _ => h.done _
    · exact h.done _

theorem readAt (h : Composable P) (loads : P Loaded (load s))
    (entry : P (Option Entry) (entryAsOf name s n)) : P Reading (Store.readAt name s n) := by
  rw [readAt_eq]
  exact h.bind (h.recordOf loads) fun _ => h.readRecorded fun _ _ _ => entry

/-- Look-ups are made at the active revisions of the scopes that have been recorded. -/
theorem firstHit (h : Composable P) {scopes : List Scope}
    (entries : ∀ s ∈ scopes, ∀ n, (c.find? s).bind ScopeRecord.active = some n →
      P (Option Entry) (entryAsOf name s n)) : P (Option Hit) (Store.firstHit c name scopes) := by
  induction scopes with
  | nil => exact h.done none
  | cons s rest ih =>
      obtain ⟨first, entries⟩ := List.forall_mem_cons.mp entries
      cases active : (c.find? s).bind ScopeRecord.active with
      | none =>
          rw [firstHit_cons_of_inactive active]
          exact ih entries
      | some n =>
          obtain ⟨record, find, active'⟩ := Option.bind_eq_some_iff.mp active
          rw [firstHit_cons_of_active find active']
          apply h.bind (first n active)
          intro found
          cases found with
          | none => exact ih entries
          | some entry => exact h.done _

/-- A read that the catalog lets through. -/
theorem readActive (h : Composable P) {fallback : Fallback} (passes : c.checkConflicts s = .ok ())
    (entries : ∀ r ∈ candidates fallback s, ∀ n, (c.find? r).bind ScopeRecord.active = some n →
      P (Option Entry) (entryAsOf name r n)) : P Reading (Store.readActive fallback c name s) := by
  rw [Store.readActive, passes]
  exact h.bind (h.done ()) fun _ => h.bind (h.firstHit entries) fun _ => h.done _

/-- **The active entries of some records.** -/
theorem readEach (h : Composable P) {records : List ScopeRecord}
    (entries : ∀ r ∈ records, ∀ n, r.active = some n → P (Option Entry) (entryAsOf name r.scope n)) :
    P (List Reading) (Store.readEach name records) := by
  induction records with
  | nil => exact h.done []
  | cons record rest ih =>
      obtain ⟨first, entries⟩ := List.forall_mem_cons.mp entries
      cases active : record.active with
      | none =>
          rw [readEach_cons_of_inactive active]
          exact ih entries
      | some n =>
          rw [readEach_cons_of_active active]
          exact h.bind (first n active) fun _ => h.bind (ih entries) fun _ => h.done _

end Session.Composable

/-! ## Members of a batch

What a member of a batch is answered with is a read, unless the check ahead would have refused it. -/

/-- Whether an operation changes nothing. -/
def Operation.isRead : Operation → Bool
  | .read _ | .list _ => true
  | .assign _ | .activate _ => false

namespace Store

variable {c : Catalog} {q : Query}

/-- Reads what a query names. -/
def readQuery (fallback : Fallback) (c : Catalog) (q : Query) : Session Reading :=
  (Session.done (scopeOf q.params)).bind fun s =>
    match q.revision with
    | some n => readAt q.name s n
    | none => readActive fallback c q.name s

theorem answer_read (fallback : Fallback) (c : Catalog) (q : Query) :
    answer fallback c (.read q) = (readQuery fallback c q).bind fun r => .done (.ok (some (.value r))) := by
  rw [readQuery, Session.bind_assoc, answer, Session.bind_eq]
  congr
  funext s
  cases q.revision <;> rfl

end Store

namespace Session.Composable

variable {P : ∀ α : Type, Session α → Prop} {fallback : Fallback} {c : Catalog} {op : Operation}
  {q : Query}

/-- A query looks up what it names, unless it names no scope or is not let through. -/
theorem readQuery (h : Composable P) (loads : ∀ s, P Loaded (load s))
    (entries : ∀ name s n, P (Option Entry) (entryAsOf name s n))
    (refused : ∀ e, check c (.read q) = .error e → P Reading (.done (.error e))) :
    P Reading (Store.readQuery fallback c q) := by
  rw [Store.readQuery]
  cases scope : scopeOf q.params with
  | error e =>
      apply refused e
      rw [check, scope]
      rfl
  | ok s =>
      rw [Session.bind]
      cases revision : q.revision with
      | some n => exact h.readAt (loads s) (entries _ _ _)
      | none =>
          cases passes : c.checkConflicts s with
          | ok u => exact h.readActive passes fun _ _ _ _ => entries _ _ _
          | error e =>
              simp only [Store.readActive, passes]
              apply refused e
              rw [check, scope, revision]
              exact passes

/-- **What holds of all look-ups holds of every answer**, and of the refusals that come instead. -/
theorem answer (h : Composable P) (loads : ∀ s, P Loaded (load s))
    (entries : ∀ name s n, P (Option Entry) (entryAsOf name s n))
    (refused : ∀ e, op.isRead → check c op = .error e → ∀ α, P α (.done (.error e))) :
    P (Option Outcome) (Store.answer fallback c op) := by
  cases op with
  | assign | activate => exact h.done none
  | read q =>
      rw [answer_read]
      exact h.bind (h.readQuery loads entries fun e failed => refused e rfl failed _) fun _ => h.done _
  | list q =>
      rw [Store.answer]
      cases named : Filter.ofParameters q.filter with
      | error e =>
          apply refused _ rfl
          rw [check, named]
          rfl
      | ok filter =>
          show P _ ((list c q.name filter q.coverage).bind _)
          exact h.bind (h.readEach fun _ _ _ _ => entries _ _ _) fun _ => h.done _

end Session.Composable

end ScopedConfig
