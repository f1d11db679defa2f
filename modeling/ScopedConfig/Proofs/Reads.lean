import ScopedConfig.Proofs.Catalogs
import ScopedConfig.Proofs.RoundTrip
import ScopedConfig.Proofs.Staging

/-!
# What is read of a depicted table

On a table that depicts a ledger, loading a scope's record answers what the ledger says of the scope
(`Depicts.load_run`), and loading them all a catalog that lists the ledger (`Depicts.catalog_run`).
Loading a record depends on what is stored under its key only (`load_run_of_get?_eq`).
-/

namespace ScopedConfig

open Layout Store

variable {U : Scope → Prop} {t t' : Table} {l l' : Ledger} {s : Scope}

theorem decodeRecord_eq_ok_iff {bytes : Bytes} {r : ScopeRecord} :
    decodeRecord bytes = .ok r ↔ ScopeRecord.unpack? bytes = some r := by
  rw [decodeRecord]
  cases ScopeRecord.unpack? bytes <;> simp

theorem exists_left_of_forall₂ {α β : Type} {R : α → β → Prop} {as : List α} {bs : List β}
    (h : List.Forall₂ R as bs) {b : β} (hb : b ∈ bs) : ∃ a ∈ as, R a b := by
  induction h with
  | nil => cases hb
  | cons hab _ ih =>
      rcases List.mem_cons.mp hb with rfl | hb
      · exact ⟨_, by simp, hab⟩
      · obtain ⟨a, ha, h⟩ := ih hb
        exact ⟨a, List.mem_cons_of_mem _ ha, h⟩

/-! ## Single records

A record is stored under the identity of its scope, and a missing one counts as blank. On a depicted
table it can be decoded, because the packed forms of records can be read back. -/

/-- What loading the record of a scope makes of what is stored under its key. -/
def loadedOf (s : Scope) : Option Versioned → Except StoreError Loaded
  | none => .ok ⟨.blank s, none⟩
  | some stored => (decodeRecord stored.value).map fun r => ⟨r, some stored.version⟩

/-- Loading a record is one request. What comes of it is a matter of what is stored. -/
theorem load_run (s : Scope) (t : Table) :
    (load s).run t = (loadedOf s (t.get? (recordKey s.id)), t) := by
  show (match t.get? (recordKey s.id) with
    | none => (Session.done (.ok ⟨.blank s, none⟩) : Session Loaded)
    | some stored => (Session.done (decodeRecord stored.value)).bind fun r =>
        .done (.ok ⟨r, some stored.version⟩)).run t = _
  cases t.get? (recordKey s.id) with
  | none => rfl
  | some stored =>
      show ((Session.done (decodeRecord stored.value)).bind _).run t = _
      rw [loadedOf]
      cases decodeRecord stored.value with
      | error e => rfl
      | ok r => rfl

/-- What is stored under the key of a record is all that loading it depends on. -/
theorem load_run_of_get?_eq {loaded : Loaded} (h : (load s).run t = (.ok loaded, t))
    (same : t'.get? (recordKey s.id) = t.get? (recordKey s.id)) :
    (load s).run t' = (.ok loaded, t') := by
  rw [load_run, Prod.mk.injEq] at h
  rw [load_run, same, h.1]

namespace Table.Depicts

/-- **Loading a scope's record.** -/
theorem load_run (sep : Scope.Separated U) (h : t.Depicts U l) (hs : U s) :
    (load s).run t = (.ok ⟨l.record s, t.version? (recordKey s.id)⟩, t) := by
  have record := h.record s hs
  rw [ScopedConfig.load_run, Prod.mk.injEq, version?]
  refine ⟨?_, rfl⟩
  cases stored : t.get? (recordKey s.id) with
  | none =>
      rw [stored, Option.map_none, eq_comm, Option.map_eq_none_iff] at record
      rw [Ledger.record, record]
      rfl
  | some found =>
      rw [stored, Option.map_some, eq_comm, Option.map_eq_some_iff] at record
      obtain ⟨p, hp, pack⟩ := record
      have decoded : decodeRecord found.value = .ok (p.record s.canonical) := by
        rw [decodeRecord_eq_ok_iff, ← pack]
        exact ScopeRecord.unpack?_pack (sep.small s hs).canonical
      rw [l.record_eq hp, loadedOf, decoded]
      rfl

/-! ## All records

A scan of the records finds a row for each recorded scope, in the order of the keys. Each row is
decoded to the record of its scope, and the ledger is listed by what comes of that. -/

/-- A row of a record, with its scope and pointers. -/
theorem exists_of_mem_scan (sep : Scope.Separated U) (h : t.Depicts U l) {row : Row}
    (hrow : row ∈ t.scan recordPrefix) :
    ∃ s p, U s ∧ l.pointers s.canonical = some p ∧ row.1 = recordKey s.id ∧
      decodeRecord row.2.value = .ok (p.record s.canonical) := by
  obtain ⟨mem, start⟩ := mem_scan_iff.mp hrow
  have stored : t.get? row.1 = some row.2 := mem_rows_iff.mp mem
  rcases h.key row.1 row.2 stored with ⟨s, hs, key⟩ | ⟨name, s, n, hs, key⟩ | key
  · have record := h.record s hs
    rw [← key, stored, Option.map_some, eq_comm, Option.map_eq_some_iff] at record
    obtain ⟨p, hp, pack⟩ := record
    refine ⟨s, p, hs, hp, key, ?_⟩
    rw [decodeRecord_eq_ok_iff, ← pack]
    exact ScopeRecord.unpack?_pack (sep.small s hs).canonical
  · rw [key, not_startsWith_entryKey] at start
    cases start
  · rw [key, not_startsWith_epochKey] at start
    cases start

theorem exists_mem_scan (h : t.Depicts U l) (hs : U s) {p : Pointers}
    (hp : l.pointers s.canonical = some p) :
    ∃ row ∈ t.scan recordPrefix, row.1 = recordKey s.id := by
  have record := h.record s hs
  rw [hp, Option.map_some, Option.map_eq_some_iff] at record
  obtain ⟨stored, hstored, -⟩ := record
  exact ⟨(recordKey s.id, stored), mem_scan_iff.mpr
    ⟨mem_rows_iff.mpr hstored, startsWith_recordKey s.id⟩, rfl⟩

/-- Rows that can be decoded one by one can be decoded together. -/
theorem decodeRecords_of_forall {R : Row → ScopeRecord → Prop} {rows : List Row}
    (h : ∀ row ∈ rows, ∃ r, R row r ∧ decodeRecord row.2.value = .ok r) :
    ∃ rs, decodeRecords rows = .ok rs ∧ List.Forall₂ R rows rs := by
  induction rows with
  | nil => exact ⟨[], rfl, .nil⟩
  | cons row rows ih =>
      obtain ⟨⟨r, hr, decoded⟩, h⟩ := List.forall_mem_cons.mp h
      obtain ⟨rs, decodeds, hrs⟩ := ih h
      refine ⟨r :: rs, ?_, .cons hr hrs⟩
      rw [decodeRecords, decoded, decodeds]
      rfl

/-- If each record belongs to the key of its row, the records stand in the order of the keys. -/
theorem keys_of_decodeRecords {rows : List Row} {rs : List ScopeRecord}
    (h : ∀ row ∈ rows, ∀ r, decodeRecord row.2.value = .ok r → recordKey r.scope.id = row.1)
    (decoded : decodeRecords rows = .ok rs) :
    rs.map (fun r => recordKey r.scope.id) = rows.map Prod.fst := by
  induction rows generalizing rs with
  | nil =>
      cases decoded
      rfl
  | cons row rows ih =>
      obtain ⟨first, h⟩ := List.forall_mem_cons.mp h
      rw [decodeRecords] at decoded
      obtain ⟨r, one, decoded⟩ := bind_eq_ok_iff.mp decoded
      obtain ⟨rest, others, decoded⟩ := bind_eq_ok_iff.mp decoded
      cases decoded
      rw [List.map_cons, List.map_cons, first r one, ih h others]

/-- The records of a catalog stand in the order of their keys. -/
theorem catalog_keys (sep : Scope.Separated U) (h : t.Depicts U l) {rs : List ScopeRecord}
    (decoded : decodeRecords (t.scan recordPrefix) = .ok rs) :
    rs.map (fun r => recordKey r.scope.id) = (t.scan recordPrefix).map Prod.fst := by
  apply keys_of_decodeRecords _ decoded
  intro row hrow r one
  obtain ⟨s, p, hs, hp, key, one'⟩ := h.exists_of_mem_scan sep hrow
  cases one.symm.trans one'
  rw [key]
  exact congrArg recordKey (Scope.id_canonical s)

/-- **Loading all records.** -/
theorem catalog_run (sep : Scope.Separated U) (h : t.Depicts U l) :
    ∃ c, catalog.run t = (.ok c, t) ∧ c.Lists l := by
  let R (row : Row) (r : ScopeRecord) : Prop :=
    ∃ s p, U s ∧ l.pointers s.canonical = some p ∧ row.1 = recordKey s.id ∧ r = p.record s.canonical
  have rows : ∀ row ∈ t.scan recordPrefix, ∃ r, R row r ∧ decodeRecord row.2.value = .ok r := by
    intro row hrow
    obtain ⟨s, p, hs, hp, key, decoded⟩ := h.exists_of_mem_scan sep hrow
    exact ⟨_, ⟨s, p, hs, hp, key, rfl⟩, decoded⟩
  obtain ⟨rs, decoded, hrs⟩ := decodeRecords_of_forall rows
  refine ⟨⟨rs⟩, ?_, fun r => ⟨fun hr => ?_, fun hr => ?_⟩, ?_, fun c hc => ?_⟩
  · show (Session.bind (.done (decodeRecords (t.scan recordPrefix))) _).run t = _
    rw [decoded]
    rfl
  · obtain ⟨row, -, s, p, hs, hp, key, rfl⟩ := exists_left_of_forall₂ hrs hr
    exact hp
  · -- the record has a row, and the row is decoded to a record of a scope with the same key
    obtain ⟨s, hs, scope⟩ := h.pointers r.scope (by rw [hr]; exact Option.some_ne_none _)
    rw [← scope] at hr
    obtain ⟨row, hrow, key⟩ := h.exists_mem_scan hs hr
    obtain ⟨r', hr', s', p', hs', hp', key', rfl⟩ := exists_left_of_forall₂ hrs.flip hrow
    have same := (sep.recordKey_eq_iff hs hs').mp (key.symm.trans key')
    rw [← same, hr] at hp'
    cases hp'
    rw [← same, scope] at hr'
    exact hr'
  · -- no two rows have the same key
    have nodup := keys_nodup_scan t recordPrefix
    rw [← h.catalog_keys sep decoded, ← Function.comp_def (fun s => recordKey s.id) ScopeRecord.scope,
      ← List.map_map] at nodup
    exact nodup.of_map _
  · obtain ⟨s, hs, rfl⟩ := h.pointers c hc
    exact ⟨(sep.wellFormed s hs).canonical, Scope.WellFormed.canonical_idem s⟩

end Table.Depicts

end ScopedConfig
