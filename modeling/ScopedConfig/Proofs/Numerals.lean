import ScopedConfig.Text.Digits

/-!
# Numerals read back

Every numeral that `Text` writes is read back to the number or the bytes it came from
(`decimal?_decimal`, `decimal?_padded`, `hexBytes?_hexByte`), hence different numbers and byte strings
have different numerals. What a key needs besides: a decimal numeral has no colon in it, so a colon
behind it ends it, and numerals of one width are in the order of their numbers (`padded_lt_iff`).
-/

namespace ScopedConfig.Text

/-! ### Decimal

Reading goes from the front with the number read so far, writing from the back. So what is read of
two pieces is read of the first and then of the second (`decimalFrom?_append`), and the inductions
split off the last digit. -/

/-- A digit is read back as the last digit of the number. -/
theorem digit?_digit (n : Nat) : digit? (digit n) = some (n % 10) := by
  have all : ∀ d < 10, digit? (Char.ofNat (48 + d)) = some d := by decide
  exact all _ (Nat.mod_lt _ (by decide))

/-- **Pieces are read one after another.** -/
theorem decimalFrom?_append (n : Nat) (cs ds : List Char) :
    decimalFrom? n (cs ++ ds) = (decimalFrom? n cs).bind fun m => decimalFrom? m ds := by
  induction cs generalizing n with
  | nil => rfl
  | cons c cs ih =>
      simp only [List.cons_append, decimalFrom?]
      cases digit? c with
      | none => rfl
      | some d => exact ih _

theorem decimalFrom?_digit (m n : Nat) :
    decimalFrom? m [digit n] = some (10 * m + n % 10) := by
  rw [decimalFrom?, digit?_digit]
  rfl

/-- A numeral of fixed width stands for the last digits of the number. -/
theorem decimalFrom?_padded (width m n : Nat) :
    decimalFrom? m (padded width n) = some (m * 10 ^ width + n % 10 ^ width) := by
  induction width generalizing n with
  | zero => simp [padded, decimalFrom?, Nat.mod_one]
  | succ width ih =>
      rw [padded, decimalFrom?_append, ih, Option.bind_some, decimalFrom?_digit]
      congr 1
      rw [Nat.pow_succ', Nat.mod_mul, Nat.mul_left_comm, Nat.mul_add]
      omega

/-- **A numeral of fixed width is read back** as the number, less what goes beyond the width. -/
theorem decimal?_padded (width n : Nat) :
    decimal? (padded (width + 1) n) = some (n % 10 ^ (width + 1)) := by
  have read := decimalFrom?_padded (width + 1) 0 n
  have long : (padded (width + 1) n).length = width + 1 := padded_length _ _
  cases h : padded (width + 1) n with
  | nil => simp [h] at long
  | cons c cs =>
      rw [h] at read
      simpa [decimal?] using read

theorem decimal_ne_nil (n : Nat) : decimal n ≠ [] := by
  rw [decimal]
  split <;> simp

theorem decimalFrom?_decimal (n : Nat) : decimalFrom? 0 (decimal n) = some n := by
  induction n using decimal.induct with
  | case1 n h =>
      rw [decimal, if_pos h, decimalFrom?_digit]
      congr 1
      omega
  | case2 n h ih =>
      rw [decimal, if_neg h, decimalFrom?_append, ih, Option.bind_some, decimalFrom?_digit]
      congr 1
      omega

/-- **A decimal numeral is read back.** -/
theorem decimal?_decimal (n : Nat) : decimal? (decimal n) = some n := by
  cases h : decimal n with
  | nil => exact absurd h (decimal_ne_nil n)
  | cons c cs => rw [decimal?, ← h, decimalFrom?_decimal]; simp

/-- There are only digits in a numeral. -/
theorem isSome_digit?_of_mem_decimal {n : Nat} {c : Char} (h : c ∈ decimal n) :
    (digit? c).isSome := by
  induction n using decimal.induct with
  | case1 n small =>
      rw [decimal, if_pos small, List.mem_singleton] at h
      rw [h, digit?_digit]
      rfl
  | case2 n large ih =>
      rw [decimal, if_neg large, List.mem_append, List.mem_singleton] at h
      rcases h with h | rfl
      · exact ih h
      · rw [digit?_digit]; rfl

theorem isSome_digit?_of_mem_padded {width n : Nat} {c : Char} (h : c ∈ padded width n) :
    (digit? c).isSome := by
  induction width generalizing n with
  | zero => cases h
  | succ width ih =>
      rw [padded, List.mem_append, List.mem_singleton] at h
      rcases h with h | rfl
      · exact ih h
      · rw [digit?_digit]; rfl

/-- A decimal numeral ends where a character follows that is no digit. -/
theorem decimal_append_inj {m n : Nat} {c : Char} {cs ds : List Char} (hc : digit? c = none)
    (h : decimal m ++ c :: cs = decimal n ++ c :: ds) : m = n ∧ cs = ds := by
  have stop (k : Nat) : c ∉ decimal k := fun hk => by
    have := isSome_digit?_of_mem_decimal hk
    rw [hc] at this
    cases this
  have same : decimal m = decimal n ∧ c :: cs = c :: ds := by
    -- one of the numerals goes on where the other ends, and there a digit would have to be `c`
    rcases List.append_eq_append_iff.mp h with ⟨as, hn, hm⟩ | ⟨as, hm, hn⟩
    · cases as with
      | nil => exact ⟨by simpa using hn.symm, hm⟩
      | cons a as =>
          cases hm
          exact absurd (hn ▸ by simp) (stop n)
    · cases as with
      | nil => exact ⟨by simpa using hm, hn.symm⟩
      | cons a as =>
          cases hn
          exact absurd (hm ▸ by simp) (stop m)
  refine ⟨?_, (List.cons.inj same.2).2⟩
  have read := decimal?_decimal m
  rw [same.1, decimal?_decimal] at read
  exact (Option.some.inj read).symm

/-! ### Order

Numerals of one width are compared digit by digit from the front, which is the order of the numbers,
the first digit being the highest. -/

/-- Digits are in the order of what they stand for. -/
theorem digit_lt_iff (m n : Nat) : digit m < digit n ↔ m % 10 < n % 10 := by
  have all : ∀ c < 10, ∀ d < 10, Char.ofNat (48 + c) < Char.ofNat (48 + d) ↔ c < d := by decide
  exact all _ (Nat.mod_lt m (by decide)) _ (Nat.mod_lt n (by decide))

/-- Behind texts of one length the order is decided only if they are equal. -/
theorem append_lt_append_iff {α : Type} [LT α] {xs ys as bs : List α}
    (length : xs.length = ys.length) :
    xs ++ as < ys ++ bs ↔ xs < ys ∨ xs = ys ∧ as < bs := by
  induction xs generalizing ys with
  | nil =>
      obtain rfl := List.eq_nil_of_length_eq_zero length.symm
      simp
  | cons x xs ih =>
      cases ys with
      | nil => cases length
      | cons y ys =>
          rw [List.cons_append, List.cons_append, List.cons_lt_cons_iff, List.cons_lt_cons_iff,
            ih (Nat.succ.inj length), List.cons.injEq]
          constructor
          · rintro (lt | ⟨eq, lt | ⟨eqs, lt⟩⟩)
            · exact .inl (.inl lt)
            · exact .inl (.inr ⟨eq, lt⟩)
            · exact .inr ⟨⟨eq, eqs⟩, lt⟩
          · rintro ((lt | ⟨eq, lt⟩) | ⟨⟨eq, eqs⟩, lt⟩)
            · exact .inl lt
            · exact .inr ⟨eq, .inl lt⟩
            · exact .inr ⟨eq, .inr ⟨eqs, lt⟩⟩

/-- **Numerals of one width are in the order of their numbers.** -/
theorem padded_lt_iff {width m n : Nat} (hm : m < 10 ^ width) (hn : n < 10 ^ width) :
    padded width m < padded width n ↔ m < n := by
  induction width generalizing m n with
  | zero =>
      simp only [Nat.pow_zero, Nat.lt_one_iff] at hm hn
      subst hm hn
      simp [padded]
  | succ width ih =>
      rw [Nat.pow_succ] at hm hn
      have hm' : m / 10 < 10 ^ width := by omega
      have hn' : n / 10 < 10 ^ width := by omega
      have same : padded width (m / 10) = padded width (n / 10) ↔ m / 10 = n / 10 := by
        refine ⟨fun eq => ?_, fun eq => by rw [eq]⟩
        have read := decimalFrom?_padded width 0 (m / 10)
        rw [eq, decimalFrom?_padded, Nat.mod_eq_of_lt hm', Nat.mod_eq_of_lt hn'] at read
        have := Option.some.inj read
        omega
      have single : [digit m] < [digit n] ↔ m % 10 < n % 10 := by
        rw [List.cons_lt_cons_iff, digit_lt_iff]
        simp
      rw [padded, padded, append_lt_append_iff (by simp), ih hm' hn', same, single]
      omega

/-! ### Hexadecimal

Two digits for each byte, the higher one first. Bytes of one length have numerals of one length, so
no end has to be marked. -/

theorem hexDigit?_hexDigit (n : Nat) : hexDigit? (hexDigit n) = some (n % 16) := by
  have all : ∀ d < 16, hexDigit? (hexDigit d) = some d := by decide
  have := all _ (Nat.mod_lt n (by decide : 0 < 16))
  rwa [hexDigit, Nat.mod_mod, ← hexDigit] at this

/-- **Hexadecimal numerals are read back**, byte by byte. -/
theorem hexBytes?_hexByte (bytes : List UInt8) :
    hexBytes? (bytes.flatMap hexByte) = some bytes := by
  induction bytes with
  | nil => rfl
  | cons b bytes ih =>
      have value : UInt8.ofNat (16 * (b.toNat / 16 % 16) + b.toNat % 16) = b := by
        have : 16 * (b.toNat / 16 % 16) + b.toNat % 16 = b.toNat := by
          have := b.toNat_lt
          omega
        rw [this, UInt8.ofNat_toNat]
      simp only [List.flatMap_cons, hexByte, List.cons_append, List.nil_append, hexBytes?,
        hexDigit?_hexDigit, ih, bind, Option.bind_some, pure, value]

/-- Different bytes have different numerals. -/
theorem hexText_injective {as bs : List UInt8} (h : hexText as = hexText bs) : as = bs := by
  have read := hexBytes?_hexByte as
  rw [String.ofList_injective h, hexBytes?_hexByte] at read
  exact (Option.some.inj read).symm

@[simp] theorem length_hexText (bytes : List UInt8) :
    (hexText bytes).toList.length = 2 * bytes.length := by
  rw [hexText, String.toList_ofList, hexBytes_length]

end ScopedConfig.Text
