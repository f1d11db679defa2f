import ScopedConfig.Proofs.Invariants
import ScopedConfig.Proofs.ReadInduction

/-!
# Reads do not fail

On a table that depicts a ledger of values that fit, whatever is read can be decoded, so a read
answers and changes nothing (`Session.Answers`), unless it is ambiguous. None of that depends on which
scope is asked for: a record or an entry under the key of a scope is there because some call put it
there.
-/

namespace ScopedConfig

open Layout Store

/-! ## Sessions that answer

Answering goes through `bind`, which makes it one of the predicates that can be followed along the
reads (`Answers.composable`). What is left to show is that the two look-ups answer. -/

namespace Session

variable {α β : Type} {t : Table}

/-- The session goes through and leaves the table as it is. -/
def Answers (x : Session α) (t : Table) : Prop := ∃ a, x.run t = (.ok a, t)

namespace Answers

theorem pure (a : α) : (Pure.pure a : Session α).Answers t := ⟨a, rfl⟩

theorem bind {x : Session α} {f : α → Session β} (hx : x.Answers t)
    (hf : ∀ a, x.run t = (.ok a, t) → (f a).Answers t) : (x >>= f).Answers t := by
  obtain ⟨a, ha⟩ := hx
  obtain ⟨b, hb⟩ := hf a ha
  exact ⟨b, by rw [bind_eq, run_bind_of_ok ha, hb]⟩

theorem done {result : Except StoreError α} (h : ∃ a, result = .ok a) : (done result).Answers t := by
  obtain ⟨a, rfl⟩ := h
  exact ⟨a, rfl⟩

/-- What is no transaction never fails on a table. -/
theorem request {r : Request} (reading : r.isTransaction = false) : (request r).Answers t := by
  cases r with
  | transact ops => cases reading
  | get key => exact ⟨t.get? key, rfl⟩
  | scan pre => exact ⟨t.scan pre, rfl⟩
  | floor pre key => exact ⟨t.floor pre key, rfl⟩

theorem composable : Composable fun _ x => x.Answers t where
  done a := pure a
  bind hx hf := hx.bind fun a _ => hf a

end Answers

end Session

/-! ## Values that can be stored

The packed form of an entry can be read back where its value fits into it. All values of a ledger do
if those of the calls did, which is an invariant of traces. -/

/-- The store decodes what the packed form gives back, and fails on anything else. -/
theorem decodeEntry_eq_ok_iff {bytes : Bytes} {e : Entry} :
    decodeEntry bytes = .ok e ↔ Entry.unpack? bytes = some e := by
  rw [decodeEntry]
  cases Entry.unpack? bytes <;> simp

/-- Every value in the ledger can be stored. -/
def Ledger.Storable (l : Ledger) : Prop := ∀ name s n e, l.entries name s n = some e → e.1.Fits

/-- Calls whose values can be stored lead to ledgers of such values. -/
theorem Traces.storable {U : Scope → Prop} {cs : List Commit} {rs : List Reply} {t : Table}
    {l : Ledger} (h : Traces U cs rs t l) (fits : ∀ k ∈ cs, k.call.Fits) : l.Storable := by
  apply h.kept
  · intro name s n e he
    cases he
  · intro k hk l r l' _ storable serves
    have fit := fits k hk
    rcases Ledger.effect_of_serves serves with ⟨batch, placed, rfl, stored⟩ |
      ⟨s, p, n, rfl, hp, -, -⟩ | ⟨s, rfl, -⟩
    · intro name s n e he
      rcases Ledger.entries_write_cases he with ⟨p, hp, -, -, -, rfl⟩ | he
      · exact stored fit p hp
      · exact storable name s n e he
    · rw [Ledger.activate_eq hp]
      exact storable
    · exact storable

namespace Table.Depicts

variable {U : Scope → Prop} {t : Table} {l : Ledger}

/-! ## Single look-ups

A look-up fails only on what it finds and cannot decode. Every row of the table is the record of a
scope, an entry or the epoch, as some call put it there (`Depicts.key`), so the question is which of
them a look-up can come across. -/

/-- **A record can be loaded.** -/
theorem load_answers (sep : Scope.Separated U) (h : t.Depicts U l) (s : Scope) :
    (load s).Answers t := by
  unfold load
  refine .bind (.request rfl) fun found get => ?_
  cases found with
  | none => exact .pure _
  | some stored =>
      -- a call put the record, though perhaps of another scope with this identity
      have put : t.get? (recordKey s.id) = some stored := Except.ok.inj (Prod.mk.inj get).1
      obtain ⟨r, p, used, -, -, pack⟩ := h.exists_of_recordKey put
      refine .bind (.done ⟨p.record r.canonical, ?_⟩) fun _ _ => .pure _
      rw [decodeRecord_eq_ok_iff, pack]
      exact ScopeRecord.unpack?_pack (sep.small r used).canonical

/-- A row with a revision behind the prefix of a property in a scope is an entry of theirs. -/
theorem exists_decodeEntry (h : t.Depicts U l) (storable : l.Storable) {name k : String}
    {i : ScopeId} {stored : Versioned} (hk : t.get? k = some stored)
    (revision : (revision? (entryPrefix name i) k).isSome) : ∃ e, decodeEntry stored.value = .ok e := by
  -- record keys and the epoch key start with another letter
  have start := prefix_of_revision? revision
  rcases h.key k stored hk with ⟨s, -, rfl⟩ | ⟨name', s, n, used, rfl⟩ | rfl
  · rw [toList_entryPrefix, toList_recordKey, List.cons_prefix_cons] at start
    exact absurd start.1 (by decide)
  · have entry := h.entry name' s n used
    rw [hk, eq_comm, Option.map_eq_some_iff] at entry
    obtain ⟨e, he, rfl⟩ := entry
    exact ⟨_, decodeEntry_eq_ok_iff.mpr (Entry.unpack?_pack (storable _ _ _ _ he))⟩
  · rw [toList_entryPrefix, show epochKey.toList = 's' :: "copes/epoch".toList from rfl,
      List.cons_prefix_cons] at start
    exact absurd start.1 (by decide)

/-- **An entry can be looked up.** The row before a key need not be one of the property in this
scope; then nothing is decoded. -/
theorem entryAsOf_answers (h : t.Depicts U l) (storable : l.Storable) (name : String) (s : Scope)
    (n : Revision) : (entryAsOf name s n).Answers t := by
  -- a row behind the prefix is decoded if it ends in a revision
  have decodes : ∃ entry, entryOf (entryPrefix name s.id)
      (t.floor (entryPrefix name s.id) (entryKey name s.id n)) = .ok entry := by
    cases found : t.floor (entryPrefix name s.id) (entryKey name s.id n) with
    | none => exact ⟨none, rfl⟩
    | some row =>
        rw [entryOf]
        split
        · next revision =>
          have stored : t.get? row.1 = some row.2 := mem_rows_iff.mp (mem_of_floor found)
          obtain ⟨e, decoded⟩ := h.exists_decodeEntry storable stored revision
          exact ⟨some e, by rw [decoded]; rfl⟩
        · exact ⟨none, rfl⟩
  obtain ⟨entry, decoded⟩ := decodes
  exact ⟨entry, by rw [entryAsOf_run, decoded]⟩

/-! ## Reads

They answer because their look-ups do. -/

/-- A read at a revision answers, whether or not the revision has been written. -/
theorem readAt_answers (sep : Scope.Separated U) (h : t.Depicts U l) (storable : l.Storable)
    (name : String) (s : Scope) (n : Revision) : (readAt name s n).Answers t :=
  Session.Answers.composable.readAt (h.load_answers sep s) (h.entryAsOf_answers storable name s n)

/-- The search for the first hit answers, even where nothing is hit. -/
theorem firstHit_answers (h : t.Depicts U l) (storable : l.Storable) (catalog : Catalog)
    (name : String) (scopes : List Scope) : (firstHit catalog name scopes).Answers t :=
  Session.Answers.composable.firstHit fun s _ n _ => h.entryAsOf_answers storable name s n

theorem readEach_answers (h : t.Depicts U l) (storable : l.Storable) (name : String)
    (records : List ScopeRecord) : (readEach name records).Answers t :=
  Session.Answers.composable.readEach fun r _ n _ => h.entryAsOf_answers storable name r.scope n

end Table.Depicts

end ScopedConfig
