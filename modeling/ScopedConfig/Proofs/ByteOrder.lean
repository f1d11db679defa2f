import Mathlib.Tactic.SplitIfs
import ScopedConfig.Proofs.Numerals
import ScopedConfig.Bytes

/-!
# Texts are in the order of their bytes

Keys are compared character by character, and a database compares their UTF-8 bytes. The two orders are
one (`Bytes.ofText_lt_iff`): of two characters the smaller one has the smaller bytes, whatever comes
behind them (`Bytes.utf8EncodeChar_append_lt`).
-/

namespace ScopedConfig.Bytes

open String (utf8EncodeChar)

/-- The bytes of a text are those of its characters, one after another. -/
theorem ofText_eq_flatMap (s : String) : ofText s = s.toList.flatMap utf8EncodeChar := by
  rw [ofText, String.toUTF8_eq_toByteArray, ← String.utf8Encode_toList, List.utf8Encode]
  simp

theorem utf8EncodeChar_ne_nil (c : Char) : utf8EncodeChar c ≠ [] := by
  rw [← List.length_pos_iff, String.length_utf8EncodeChar]
  exact c.utf8Size_pos

theorem ofNat_lt_ofNat_iff {m n : Nat} (hm : m < 256) (hn : n < 256) :
    UInt8.ofNat m < UInt8.ofNat n ↔ m < n := by
  rw [UInt8.lt_iff_toNat_lt, UInt8.toNat_ofNat', UInt8.toNat_ofNat', Nat.mod_eq_of_lt hm,
    Nat.mod_eq_of_lt hn]

theorem ofNat_eq_ofNat_iff {m n : Nat} (hm : m < 256) (hn : n < 256) :
    UInt8.ofNat m = UInt8.ofNat n ↔ m = n := by
  rw [← UInt8.toNat_inj, UInt8.toNat_ofNat', UInt8.toNat_ofNat', Nat.mod_eq_of_lt hm,
    Nat.mod_eq_of_lt hn]

/-- **The smaller character has the smaller bytes**, and it shows before either of them ends. -/
theorem utf8EncodeChar_append_lt {c d : Char} (h : c < d) (xs ys : Bytes) :
    utf8EncodeChar c ++ xs < utf8EncodeChar d ++ ys := by
  have lt : c.toNat < d.toNat := h
  have bound : d.toNat < 0x110000 :=
    d.valid.elim (fun low => Nat.lt_trans low (by decide)) And.right
  unfold utf8EncodeChar
  rw [show c.val.toNat = c.toNat from rfl, show d.val.toNat = d.toNat from rfl]
  generalize c.toNat = m, d.toNat = n at lt bound
  -- six bits go into each byte, and the first digit to the base 64 that differs decides
  have shift (k : Nat) : k / 4096 = k / 64 / 64 ∧ k / 262144 = k / 64 / 64 / 64 := by omega
  have digit {j k : Nat} (le : j ≤ k) : j / 64 < k / 64 ∨ j / 64 = k / 64 ∧ j % 64 ≤ k % 64 := by
    omega
  have first := digit (Nat.le_of_lt lt)
  have second := digit (show m / 64 ≤ n / 64 by omega)
  have third := digit (show m / 64 / 64 ≤ n / 64 / 64 by omega)
  simp only [shift]
  -- where the one is longer than the other, its first byte is already greater
  split_ifs <;>
  · simp (disch := omega) only [List.cons_append, List.cons_lt_cons_iff, ofNat_lt_ofNat_iff,
      ofNat_eq_ofNat_iff]
    omega

theorem flatMap_utf8EncodeChar_lt_iff {cs ds : List Char} :
    cs.flatMap utf8EncodeChar < ds.flatMap utf8EncodeChar ↔ cs < ds := by
  induction cs generalizing ds with
  | nil =>
      cases ds with
      | nil => simp
      | cons d ds =>
          cases bytes : utf8EncodeChar d with
          | nil => exact absurd bytes (utf8EncodeChar_ne_nil d)
          | cons b bs => simp [bytes]
  | cons c cs ih =>
      cases ds with
      | nil => simp
      | cons d ds =>
          rw [List.flatMap_cons, List.flatMap_cons, List.cons_lt_cons_iff]
          rcases Nat.lt_trichotomy c.toNat d.toNat with lt | eq | gt
          · exact iff_of_true (utf8EncodeChar_append_lt lt _ _) (.inl lt)
          · obtain rfl := Char.toNat_inj.mp eq
            have irrefl : ¬ utf8EncodeChar c < utf8EncodeChar c := List.lt_irrefl _
            rw [Text.append_lt_append_iff rfl, ih]
            simp [irrefl]
          · refine iff_of_false (List.lt_asymm (utf8EncodeChar_append_lt gt _ _)) ?_
            rintro (lt | ⟨rfl, -⟩)
            · exact Nat.lt_asymm lt gt
            · exact Nat.lt_irrefl _ gt

/-- **Texts are in the order of their bytes.** -/
theorem ofText_lt_iff {s t : String} : ofText s < ofText t ↔ s < t := by
  rw [ofText_eq_flatMap, ofText_eq_flatMap, flatMap_utf8EncodeChar_lt_iff, String.lt_iff]

theorem ofText_le_iff {s t : String} : ofText s ≤ ofText t ↔ s ≤ t := not_congr ofText_lt_iff

end ScopedConfig.Bytes
