import ScopedConfig.Proofs.ByteOrder
import ScopedConfig.Proofs.Keys

/-!
# Every key has one place

A store keeps records of scopes, entries of properties and the epoch. Whatever the names of properties
are made of, the key of a place is that of no other one (`Place.key_inj`), and what a scan of the records
finds is a record (`Place.startsWith_recordPrefix_iff`). `keys_unambiguous` adds what is read off a key
and how a database that compares bytes arranges the entries of a property in a scope.
-/

namespace ScopedConfig.Layout

/-- What a store keeps something about. -/
inductive Place where
  | record (i : ScopeId)
  | entry (property : String) (i : ScopeId) (n : Revision)
  | epoch

namespace Place

def key : Place → String
  | .record i => recordKey i
  | .entry property i n => entryKey property i n
  | .epoch => epochKey

/-- **No two places have the same key.** -/
theorem key_inj {a b : Place} : a.key = b.key ↔ a = b := by
  refine ⟨fun h => ?_, fun h => h ▸ rfl⟩
  cases a with
  | record i =>
      cases b with
      | record j => rw [recordKey_inj.mp h]
      | entry q j n => exact absurd h (recordKey_ne_entryKey i q j n)
      | epoch => exact absurd h (recordKey_ne_epochKey i)
  | entry p i m =>
      cases b with
      | record j => exact absurd h.symm (recordKey_ne_entryKey j p i m)
      | entry q j n =>
          obtain ⟨rfl, rfl, rfl⟩ := entryKey_inj.mp h
          rfl
      | epoch => exact absurd h (entryKey_ne_epochKey p i m)
  | epoch =>
      cases b with
      | record j => exact absurd h.symm (recordKey_ne_epochKey j)
      | entry q j n => exact absurd h.symm (entryKey_ne_epochKey q j n)
      | epoch => rfl

/-- What starts like records is a record. -/
theorem startsWith_recordPrefix_iff {a : Place} :
    startsWith recordPrefix a.key ↔ ∃ i, a = .record i := by
  cases a with
  | record i => exact iff_of_true (startsWith_recordKey i) ⟨i, rfl⟩
  | entry p i n => simp [key, not_startsWith_entryKey]
  | epoch => simp [key, not_startsWith_epochKey]

end Place

/-- **The layout of keys is unambiguous and ordered.** -/
theorem keys_unambiguous :
    (∀ p q i j n, startsWith (entryPrefix p i) (entryKey q j n) ↔ p = q ∧ i = j) ∧
    (∀ a b : Place, a.key = b.key ↔ a = b) ∧
    (∀ a : Place, startsWith recordPrefix a.key ↔ ∃ i, a = .record i) ∧
    (∀ p i n, revision? (entryPrefix p i) (entryKey p i n) = some n) ∧
    (∀ p i m n, Bytes.ofText (entryKey p i m) < Bytes.ofText (entryKey p i n) ↔ m < n) := by
  refine ⟨fun p q i j n => ?_, fun a b => Place.key_inj,
    fun a => Place.startsWith_recordPrefix_iff, revision?_entryKey, fun p i m n => ?_⟩
  · rw [startsWith_iff, entryPrefix_prefix_entryKey]
  · rw [Bytes.ofText_lt_iff, entryKey_lt_iff]

end ScopedConfig.Layout
