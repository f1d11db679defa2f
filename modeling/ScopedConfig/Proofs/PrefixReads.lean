import ScopedConfig.Proofs.ByteOrder
import ScopedConfig.Proofs.Sessions
import ScopedConfig.Proofs.Tables

/-!
# Reading under a prefix

A database that compares the bytes of its keys is asked for a range of them, and finds what starts with a
prefix all the same. A scan reads from the prefix up to the least text behind all that start with it
(`forall_append_lt_iff`), so it reads what starts with the prefix and nothing else
(`Table.scan_is_prefix_search`). A floor look-up reads from the prefix up to its key. That is another
range, but where the key starts with the prefix whatever lies between them does so too, and what is found
is the last row of the scan up to the key (`Table.floor_is_last_of_scan`).
-/

namespace ScopedConfig

/-- **The end of a prefix is the least text behind all that start with it**, and where it has no end there
is no such text. -/
theorem forall_append_lt_iff {pre bound : String} :
    (∀ rest, pre ++ rest < bound) ↔ ∃ stop, prefixEnd? pre = some stop ∧ stop ≤ bound := by
  constructor
  · intro behind
    have low : pre ≤ bound := by
      have := behind ""
      rw [String.append_empty] at this
      exact Std.le_of_lt this
    -- what is not before the end is in the range, and so is not behind all that start with the prefix
    by_contra none
    have start : startsWith pre bound := by
      refine mem_range_iff.mpr ⟨low, fun stop h => ?_⟩
      exact Std.not_le.mp fun le => none ⟨stop, h, le⟩
    obtain ⟨rest, rfl⟩ := startsWith_iff_exists.mp start
    exact String.lt_irrefl _ (behind rest)
  · rintro ⟨stop, h, le⟩ rest
    have start : startsWith pre (pre ++ rest) := startsWith_iff_exists.mpr ⟨rest, rfl⟩
    exact Std.lt_of_lt_of_le ((mem_range_iff.mp start).2 stop h) le

/-- Surrogates are left out, the greatest character is dropped, and the empty text has no end. -/
example : prefixEnd? "\ud7ff" = some "\ue000" ∧
    prefixEnd? (String.ofList ['a', Char.ofNat 0x10ffff]) = some "b" ∧ prefixEnd? "" = none := by
  decide

namespace Table

/-- **A scan by a range of keys is a search for a prefix.** It finds what is stored under the keys that start
with the prefix, each once and in the order of their bytes, because a key lies in the range if and only if
it starts with the prefix. -/
theorem scan_is_prefix_search (t : Table) (pre : String) :
    (∃ rows, (Session.scan pre).run t = (.ok rows, t) ∧
      (∀ key stored, (key, stored) ∈ rows ↔ t.get? key = some stored ∧ ∃ rest, key = pre ++ rest) ∧
      rows.Pairwise fun r q => Bytes.ofText r.1 < Bytes.ofText q.1) ∧
    (∀ key, (Bytes.ofText pre ≤ Bytes.ofText key ∧
        ∀ stop, prefixEnd? pre = some stop → Bytes.ofText key < Bytes.ofText stop) ↔
      ∃ rest, key = pre ++ rest) ∧
    ∀ bound, (∀ rest, Bytes.ofText (pre ++ rest) < Bytes.ofText bound) ↔
      ∃ stop, prefixEnd? pre = some stop ∧ Bytes.ofText stop ≤ Bytes.ofText bound := by
  simp only [Bytes.ofText_lt_iff, Bytes.ofText_le_iff]
  refine ⟨⟨t.scan pre, rfl, fun key stored => ?_, t.sorted_scan pre⟩, fun key => ?_, fun bound => ?_⟩
  · rw [mem_scan_iff, mem_rows_iff, startsWith_iff_exists]
  · rw [← mem_range_iff, startsWith_iff_exists]
  · exact forall_append_lt_iff

/-- **A floor look-up finds the last row of a scan up to its key**, if the key is under the prefix, and
nothing if it is not. So it never finds a row from under another prefix. -/
theorem floor_is_last_of_scan (t : Table) (pre key : String) :
    (Session.floor pre key).run t = (.ok (t.floor pre key), t) ∧
    ((∃ rest, key = pre ++ rest) → t.floor pre key =
      ((t.scan pre).filter fun r => Bytes.ofText r.1 ≤ Bytes.ofText key).getLast?) ∧
    ((¬ ∃ rest, key = pre ++ rest) → t.floor pre key = none) ∧
    (∀ row, t.floor pre key = some row ↔ (∃ rest, key = pre ++ rest) ∧ row ∈ t.scan pre ∧
      Bytes.ofText row.1 ≤ Bytes.ofText key ∧
      ∀ r ∈ t.scan pre, Bytes.ofText r.1 ≤ Bytes.ofText key →
        Bytes.ofText r.1 ≤ Bytes.ofText row.1) ∧
    ∀ row, t.floor pre key = some row → ∃ rest, row.1 = pre ++ rest := by
  simp only [Bytes.ofText_le_iff, ← startsWith_iff_exists]
  refine ⟨rfl, fun start => t.floor_eq_getLast? start, fun away => if_neg away,
    fun row => floor_eq_some_iff, fun row found => ?_⟩
  obtain ⟨-, mem, -⟩ := floor_eq_some_iff.mp found
  exact (mem_scan_iff.mp mem).2

end Table

end ScopedConfig
