import ScopedConfig.Powers

/-!
# Bytes

Numbers as big-endian bytes and texts as UTF-8, each with its reader.
-/

namespace ScopedConfig

/-- A string of bytes. -/
abbrev Bytes := List UInt8

namespace Bytes

/-! ### Big-endian numbers -/

/-- The last `width` base-256 digits of a number, most significant first. -/
def bigEndian : Nat → Nat → Bytes
  | 0, _ => []
  | width + 1, n => bigEndian width (n / 256) ++ [UInt8.ofNat n]

/-- The number that base-256 digits write. -/
def toNat (bytes : Bytes) : Nat := bytes.foldl (fun n b => 256 * n + b.toNat) 0

@[simp] theorem bigEndian_length (width n : Nat) : (bigEndian width n).length = width := by
  induction width generalizing n with
  | zero => rfl
  | succ width ih => simp [bigEndian, ih]

theorem toNat_append_singleton (bytes : Bytes) (b : UInt8) :
    toNat (bytes ++ [b]) = 256 * toNat bytes + b.toNat := by
  simp [toNat, List.foldl_append]

theorem toNat_bigEndian (width n : Nat) : toNat (bigEndian width n) = n % 256 ^ width := by
  induction width generalizing n with
  | zero => simp [bigEndian, toNat, Nat.mod_one]
  | succ width ih =>
    rw [bigEndian, toNat_append_singleton, ih, Nat.pow_succ', Nat.mod_mul]
    simp; omega

/-! ### Texts -/

/-- The UTF-8 bytes of a text. -/
def ofText (s : String) : Bytes := s.toUTF8.data.toList

/-- The text whose UTF-8 bytes are given. -/
def text? (bytes : Bytes) : Option String := String.fromUTF8? ⟨bytes.toArray⟩

theorem text?_ofText (s : String) : text? (ofText s) = some s := by
  have h : (⟨(s.toUTF8.data.toList).toArray⟩ : ByteArray) = s.toUTF8 := rfl
  have valid : s.toUTF8.IsValidUTF8 := s.isValidUTF8
  rw [text?, ofText, h, String.fromUTF8?, dif_pos valid]
  rfl

end Bytes

end ScopedConfig
