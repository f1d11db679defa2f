import ScopedConfig.Proofs.Coherence
import ScopedConfig.Proofs.Linearization

/-!
# What is right about every table

`Table.Coherent` says, of nothing but keys, bytes and versions, what is right about every table that
any number of handles can bring about (`System.run_coherent`): which keys there are, what they hold,
and how records, entries and the epoch go together.
-/

namespace ScopedConfig

open Layout Store

namespace Table

/-- Every record has another revision. -/
def Roomy (t : Table) : Prop :=
  ∀ i stored r, t.get? (recordKey i) = some stored → ScopeRecord.unpack? stored.value = some r →
    r.working.toNat + 1 < 2 ^ 64

/-- Whether another revision fits into everything that reads as a record. -/
def hasRoom (t : Table) : Bool :=
  t.rows.all fun row => (ScopeRecord.unpack? row.2.value).all fun r => r.working.toNat + 1 < 2 ^ 64

theorem roomy_of_hasRoom {t : Table} (h : t.hasRoom) : t.Roomy := by
  intro i stored r hs unpack
  have row := List.all_eq_true.mp h _ (mem_rows_iff.mpr hs)
  rw [unpack] at row
  exact of_decide_eq_true row

/-- The record that is stored under an identity. -/
def HasRecord (t : Table) (i : ScopeId) (r : ScopeRecord) : Prop :=
  ∃ stored, t.get? (recordKey i) = some stored ∧ ScopeRecord.unpack? stored.value = some r

/-- The entry that is stored of a property at an identity and a revision. -/
def HasEntry (t : Table) (name : String) (i : ScopeId) (n : Revision) (e : Entry) : Prop :=
  ∃ stored, t.get? (entryKey name i n) = some stored ∧ Entry.unpack? stored.value = some e

structure Coherent (t : Table) : Prop where
  /-- There are no other keys than those of records, of entries and of the epoch. -/
  key : ∀ k stored, t.get? k = some stored →
    (∃ i, k = recordKey i) ∨ (∃ name i n, k = entryKey name i n) ∨ k = epochKey
  /-- A record is that of a canonical scope, stored under its identity. -/
  record : ∀ i stored, t.get? (recordKey i) = some stored → ∃ r,
    ScopeRecord.unpack? stored.value = some r ∧ r.scope.WellFormed ∧
      r.scope.canonical = r.scope ∧ r.scope.id = i
  /-- No two records are of the same scope. -/
  distinct : ∀ i j r q, t.HasRecord i r → t.HasRecord j q → r.scope.same q.scope → i = j
  /-- Revisions count from one, and the active one has been written. -/
  pointers : ∀ i r, t.HasRecord i r →
    1 ≤ r.working ∧ ∀ n, r.active = some n → 1 ≤ n ∧ n ≤ r.working
  /-- An entry is put once, at a revision that its scope has written. -/
  entry : ∀ name i n stored, t.get? (entryKey name i n) = some stored →
    stored.version = 1 ∧ (∃ e, Entry.unpack? stored.value = some e ∧ e.revision = n) ∧
      ∃ r, t.HasRecord i r ∧ 1 ≤ n ∧ n ≤ r.working
  /-- The epoch counts the records. -/
  epoch : t.version? epochKey =
    if t.count recordPrefix = 0 then none else some (t.count recordPrefix)
  /-- The entries of a scope at a revision come from one batch. -/
  batch : ∀ name name' i n e e', t.HasEntry name i n e → t.HasEntry name' i n e' →
    e.batch = e'.batch

/-- There is an entry at every revision of every scope. -/
def Gapless (t : Table) : Prop :=
  ∀ i r n, t.HasRecord i r → 1 ≤ n → n ≤ r.working → ∃ name e, t.HasEntry name i n e

namespace Depicts

variable {U : Scope → Prop} {t : Table} {l : Ledger}

/-- There are no other keys than those of records, of entries and of the epoch. -/
theorem key_cases (h : t.Depicts U l) (k : String) (stored : Versioned) (hk : t.get? k = some stored) :
    (∃ i, k = recordKey i) ∨ (∃ name i n, k = entryKey name i n) ∨ k = epochKey := by
  rcases h.key k stored hk with ⟨s, -, key⟩ | ⟨name, s, n, -, key⟩ | key
  · exact .inl ⟨s.id, key⟩
  · exact .inr (.inl ⟨name, s.id, n, key⟩)
  · exact .inr (.inr key)

/-- A record in the table is one of the ledger. -/
theorem exists_of_recordKey (h : t.Depicts U l) {i : ScopeId} {stored : Versioned}
    (hs : t.get? (recordKey i) = some stored) :
    ∃ s p, U s ∧ i = s.id ∧ l.pointers s.canonical = some p ∧
      stored.value = (p.record s.canonical).pack := by
  rcases h.key _ stored hs with ⟨s, used, key⟩ | ⟨name, s, n, -, key⟩ | key
  · obtain rfl := recordKey_inj.mp key
    have record := h.record s used
    rw [hs, Option.map_some, eq_comm, Option.map_eq_some_iff] at record
    obtain ⟨p, hp, pack⟩ := record
    exact ⟨s, p, used, rfl, hp, pack.symm⟩
  · exact absurd key (recordKey_ne_entryKey i name s.id n)
  · exact absurd key (recordKey_ne_epochKey i)

/-- And an entry too, which has been put once. -/
theorem exists_of_entryKey (h : t.Depicts U l) {name : String} {i : ScopeId} {n : Revision}
    {stored : Versioned} (hs : t.get? (entryKey name i n) = some stored) :
    ∃ s e, U s ∧ i = s.id ∧ l.entries name s.canonical n = some e ∧
      stored = ⟨Entry.pack ⟨n, e.1, e.2⟩, 1⟩ := by
  rcases h.key _ stored hs with ⟨s, -, key⟩ | ⟨name', s, n', used, key⟩ | key
  · exact absurd key.symm (recordKey_ne_entryKey s.id name i n)
  · obtain ⟨rfl, rfl, rfl⟩ := entryKey_inj.mp key
    have entry := h.entry name s n used
    rw [hs, eq_comm, Option.map_eq_some_iff] at entry
    obtain ⟨e, he, pack⟩ := entry
    exact ⟨s, e, used, rfl, he, pack.symm⟩
  · exact absurd key (entryKey_ne_epochKey name i n)

/-- **The records of a table are those of its ledger.** -/
theorem hasRecord_iff (sep : Scope.Separated U) (h : t.Depicts U l) {i : ScopeId}
    {r : ScopeRecord} :
    t.HasRecord i r ↔ ∃ s p, U s ∧ i = s.id ∧ l.pointers s.canonical = some p ∧
      r = p.record s.canonical := by
  constructor
  · rintro ⟨stored, hs, unpack⟩
    obtain ⟨s, p, used, rfl, hp, pack⟩ := h.exists_of_recordKey hs
    rw [pack, ScopeRecord.unpack?_pack (sep.small s used).canonical] at unpack
    exact ⟨s, p, used, rfl, hp, (Option.some.inj unpack).symm⟩
  · rintro ⟨s, p, used, rfl, hp, rfl⟩
    have record := h.record s used
    rw [hp, Option.map_some, Option.map_eq_some_iff] at record
    obtain ⟨stored, hs, pack⟩ := record
    refine ⟨stored, hs, ?_⟩
    rw [pack]
    exact ScopeRecord.unpack?_pack (sep.small s used).canonical

/-- **The entries of a table are those of its ledger.** -/
theorem hasEntry_iff (h : t.Depicts U l) (coherent : l.Coherent) {name : String} {i : ScopeId}
    {n : Revision} {e : Entry} :
    t.HasEntry name i n e ↔ ∃ s, U s ∧ i = s.id ∧ e.revision = n ∧
      l.entries name s.canonical n = some (e.value, e.batch) := by
  constructor
  · rintro ⟨stored, hs, unpack⟩
    obtain ⟨s, v, used, rfl, hv, rfl⟩ := h.exists_of_entryKey hs
    rw [Entry.unpack?_pack (coherent.fits _ _ _ _ hv)] at unpack
    cases unpack
    exact ⟨s, used, rfl, rfl, hv⟩
  · rintro ⟨s, used, rfl, rfl, hv⟩
    refine ⟨_, (h.entry name s e.revision used).trans (congrArg _ hv), ?_⟩
    exact Entry.unpack?_pack (coherent.fits _ _ _ _ hv)

theorem roomy_of_upto (sep : Scope.Separated U) (h : t.Depicts U l) {m : Nat} (upto : l.Upto m)
    (few : m + 1 < 2 ^ 64) : t.Roomy := by
  intro i stored r hs unpack
  obtain ⟨s, p, used, rfl, hp, rfl⟩ := (h.hasRecord_iff sep).mp ⟨stored, hs, unpack⟩
  exact Nat.lt_of_le_of_lt (Nat.succ_le_succ (upto _ p hp)) few

/-- The ledger behind a roomy table is roomy. -/
theorem roomy (sep : Scope.Separated U) (h : t.Depicts U l) (roomy : t.Roomy) : l.Roomy := by
  intro c p hp
  obtain ⟨s, used, rfl⟩ := h.pointers c (by rw [hp]; exact Option.some_ne_none p)
  obtain ⟨stored, hs, unpack⟩ := (h.hasRecord_iff sep).mpr ⟨s, p, used, rfl, hp, rfl⟩
  exact roomy s.id stored _ hs unpack

/-- **A table is as coherent as the ledger behind it.** -/
theorem coherent (sep : Scope.Separated U) (h : t.Depicts U l) (coherent : l.Coherent) :
    t.Coherent where
  key := h.key_cases
  record i stored hs := by
    obtain ⟨s, p, used, rfl, -, pack⟩ := h.exists_of_recordKey hs
    refine ⟨p.record s.canonical, ?_, (sep.wellFormed s used).canonical,
      Scope.WellFormed.canonical_idem s, Scope.id_canonical s⟩
    rw [pack]
    exact ScopeRecord.unpack?_pack (sep.small s used).canonical
  distinct i j r q hr hq same := by
    -- both records are of canonical scopes, so the same scope means the same identity
    obtain ⟨s, p, hs, rfl, -, rfl⟩ := (h.hasRecord_iff sep).mp hr
    obtain ⟨s', p', hs', rfl, -, rfl⟩ := (h.hasRecord_iff sep).mp hq
    have eq := ((sep.wellFormed s hs).canonical.same_iff_canonical_eq
      (sep.wellFormed s' hs').canonical).mp same
    have eq : s.canonical.canonical = s'.canonical.canonical := eq
    rw [Scope.WellFormed.canonical_idem, Scope.WellFormed.canonical_idem] at eq
    exact Scope.id_eq_of_canonical_eq eq
  pointers i r hr := by
    obtain ⟨s, p, -, rfl, hp, rfl⟩ := (h.hasRecord_iff sep).mp hr
    refine ⟨Revision.one_le_iff.mpr (coherent.working _ p hp), fun n hn => ?_⟩
    obtain ⟨positive, written⟩ := coherent.active _ p n hp hn
    exact ⟨Revision.one_le_iff.mpr positive, written⟩
  entry name i n stored hs := by
    obtain ⟨s, e, used, rfl, he, rfl⟩ := h.exists_of_entryKey hs
    obtain ⟨p, hp, positive, written⟩ := coherent.entry _ _ _ _ he
    exact ⟨rfl, ⟨_, Entry.unpack?_pack (coherent.fits _ _ _ _ he), rfl⟩, p.record s.canonical,
      (h.hasRecord_iff sep).mpr ⟨s, p, used, rfl, hp, rfl⟩, Revision.one_le_iff.mpr positive, written⟩
  epoch := h.version?_epochKey
  batch name name' i n e e' he he' := by
    obtain ⟨s, hs, rfl, -, he⟩ := (h.hasEntry_iff coherent).mp he
    obtain ⟨s', hs', id, -, he'⟩ := (h.hasEntry_iff coherent).mp he'
    rw [← (sep.id_eq_iff hs hs').mp id] at he'
    exact coherent.batch name name' _ n _ _ he he'

theorem gapless (sep : Scope.Separated U) (h : t.Depicts U l) (coherent : l.Coherent)
    (gapless : l.Gapless) : t.Gapless := by
  intro i r n hr positive written
  obtain ⟨s, p, used, rfl, hp, rfl⟩ := (h.hasRecord_iff sep).mp hr
  obtain ⟨name, e, he⟩ := gapless _ p n hp (Revision.one_le_iff.mp positive) written
  exact ⟨name, ⟨n, e.1, e.2⟩, (h.hasEntry_iff coherent).mpr ⟨s, used, rfl, rfl, he⟩⟩

end Depicts

end Table

/-! ## Runs

From a trace to its ledger, and from the ledger to the table that depicts it: what every call keeps
of a ledger holds of the last one, and `Depicts.coherent` and `Depicts.gapless` put it in terms of
keys and bytes. -/

namespace Traces

variable {U : Scope → Prop} {cs : List Commit} {rs : List Reply} {t : Table} {l : Ledger}

/-- **What every call keeps of a ledger with revisions left holds at the end of a trace**, if there were
revisions left before each of its commits. -/
theorem kept_of_roomy (sep : Scope.Separated U) (h : Traces U cs rs t l)
    (roomy : ∀ k ∈ cs, k.before.Roomy) {I : Ledger → Prop} (start : I .empty)
    (step : ∀ k ∈ cs, ∀ l r l', l.Roomy → I l → l.Serves k.call r l' → I l') : I l := by
  apply h.kept start
  intro k hk l r l' depicts
  exact step k hk l r l' (depicts.roomy sep (roomy k hk))

theorem orderly (sep : Scope.Separated U) (h : Traces U cs rs t l)
    (roomy : ∀ k ∈ cs, k.before.Roomy) : l.Orderly :=
  h.kept_of_roomy sep roomy Ledger.orderly_empty fun _ _ _ _ _ room orderly serves =>
    orderly.serves room serves

theorem coherent (sep : Scope.Separated U) (h : Traces U cs rs t l)
    (fits : ∀ k ∈ cs, k.call.Fits) (roomy : ∀ k ∈ cs, k.before.Roomy) : l.Coherent :=
  h.kept_of_roomy sep roomy Ledger.coherent_empty fun k hk _ _ _ room coherent serves =>
    coherent.serves room (fits k hk) serves

theorem gapless (sep : Scope.Separated U) (h : Traces U cs rs t l)
    (writes : ∀ k ∈ cs, k.call.isAdvance = false) (roomy : ∀ k ∈ cs, k.before.Roomy) :
    l.Gapless :=
  h.kept_of_roomy sep roomy Ledger.gapless_empty fun k hk _ _ _ room gapless serves =>
    gapless.serves room (writes k hk) serves

/-- Every transaction takes at most one revision of each scope, so while there are few of them there
are more revisions. -/
theorem roomy (sep : Scope.Separated U) (h : Traces U cs rs t l) (few : cs.length < 2 ^ 64) :
    l.Upto cs.length ∧ ∀ k ∈ cs, k.before.Roomy := by
  induction h with
  | start => exact ⟨Ledger.upto_empty, fun k hk => absurd hk List.not_mem_nil⟩
  | commit earlier within does serves depicts ih =>
      rw [List.length_append, List.length_singleton] at few ⊢
      obtain ⟨upto, rest⟩ := ih (by omega)
      refine ⟨upto.serves serves, List.forall_mem_append.mpr ⟨rest, fun k hk => ?_⟩⟩
      rw [List.mem_singleton.mp hk]
      exact earlier.depicts.roomy_of_upto sep upto few

end Traces

namespace System

variable {ι : Type} [DecidableEq ι] {U : Scope → Prop}

/-- Working revisions stay below their last number while there are few transactions. -/
theorem run_roomy (sep : Scope.Separated U) (moves : List (Move ι))
    (within : ∀ h c, .call h c ∈ moves → c.Within U)
    (few : (run moves).log.length + 1 < 2 ^ 64) :
    (∀ k ∈ (run moves).log, k.before.Roomy) ∧ (run moves).table.Roomy := by
  obtain ⟨replies, l, traced⟩ := run_traced sep moves within
  obtain ⟨upto, roomy⟩ := traced.trace.roomy sep (by omega)
  exact ⟨roomy, traced.trace.depicts.roomy_of_upto sep upto few⟩

/-- **Whatever any number of handles do, the table stays coherent.** -/
theorem run_coherent (sep : Scope.Separated U) (moves : List (Move ι))
    (within : ∀ h c, .call h c ∈ moves → c.Within U) (fits : ∀ h c, .call h c ∈ moves → c.Fits)
    (roomy : ∀ k ∈ (run moves).log, k.before.Roomy) :
    (run moves).table.Coherent ∧
      ((∀ h c, .call h c ∈ moves → c.isAdvance = false) → (run moves).table.Gapless) := by
  obtain ⟨replies, l, traced⟩ := run_traced sep moves within
  have coherent := traced.trace.coherent sep (run_each moves fits).2 roomy
  refine ⟨traced.trace.depicts.coherent sep coherent, fun writes => ?_⟩
  exact traced.trace.depicts.gapless sep coherent
    (traced.trace.gapless sep (run_each moves writes).2 roomy)

theorem race_writes : ∀ h c, .call h c ∈ race → c.Fits ∧ c.isAdvance = false :=
  forall_call_iff.mpr (by decide +kernel)

theorem race_coherent : (run race).table.Coherent ∧ (run race).table.Gapless := by
  obtain ⟨roomy, -⟩ := run_roomy Scope.separated_sample race race_within (by decide +kernel)
  have coherent := run_coherent Scope.separated_sample race race_within
    (fun h c hc => (race_writes h c hc).1) roomy
  exact ⟨coherent.1, coherent.2 fun h c hc => (race_writes h c hc).2⟩

end System

end ScopedConfig
