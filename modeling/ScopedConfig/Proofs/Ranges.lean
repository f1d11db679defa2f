import ScopedConfig.Proofs.Keys

/-!
# A scan is a prefix search

The range of keys that a scan reads, from the prefix up to the first text behind all texts that
start with it, holds exactly the texts that start with it (`mem_range_iff`). Hence the rows of a scan
are the rows whose keys start with the prefix (`mem_scan_iff`), in their order (`scan_eq_filter`).
-/

namespace ScopedConfig

/-! ### Successive characters

The program takes the code point after the last character of the prefix, and leaves out the
surrogates, which are no characters. Nothing lies between a character and the next one. -/

theorem toNat_ofNat_of_isValidChar {n : Nat} (h : n.isValidChar) : (Char.ofNat n).toNat = n := by
  rw [Char.ofNat, dif_pos h]
  rfl

theorem char_lt_iff {c d : Char} : c < d ↔ c.toNat < d.toNat := Iff.rfl

/-- The number of the next code point. -/
theorem nextChar?_eq_some {c d : Char} (h : nextChar? c = some d) :
    d.toNat = if c.toNat = 0xd7ff then 0xe000 else c.toNat + 1 := by
  have valid : c.toNat < 0xd800 ∨ 0xdfff < c.toNat ∧ c.toNat < 0x110000 := c.valid
  rw [nextChar?] at h
  by_cases bound : (if c.toNat = 0xd7ff then 0xe000 else c.toNat + 1) < 0x110000
  · rw [if_pos bound] at h
    cases h
    refine toNat_ofNat_of_isValidChar ?_
    rw [Nat.isValidChar]
    split at bound
    · next last =>
      rw [if_pos last]
      exact .inr (by omega)
    · next not_last =>
      rw [if_neg not_last]
      omega
  · rw [if_neg bound] at h
    cases h

/-- The next character is the least one behind. -/
theorem lt_nextChar? {c d : Char} (h : nextChar? c = some d) :
    c < d ∧ ∀ e : Char, e < d → e = c ∨ e < c := by
  have value := nextChar?_eq_some h
  simp only [char_lt_iff, ← Char.toNat_inj, value]
  refine ⟨by split <;> omega, fun e he => ?_⟩
  have valid : e.toNat < 0xd800 ∨ 0xdfff < e.toNat ∧ e.toNat < 0x110000 := e.valid
  split at he <;> omega

/-- Only the greatest character has no next one. -/
theorem not_lt_of_nextChar? {c : Char} (h : nextChar? c = none) (e : Char) : ¬ c < e := by
  have valid : e.toNat < 0xd800 ∨ 0xdfff < e.toNat ∧ e.toNat < 0x110000 := e.valid
  rw [nextChar?] at h
  by_cases bound : (if c.toNat = 0xd7ff then 0xe000 else c.toNat + 1) < 0x110000
  · rw [if_pos bound] at h
    cases h
  · rw [char_lt_iff]
    split at bound <;> omega

/-! ### Ranges of texts

Greatest characters at the end of a prefix have no next one. They are dropped, and the character
before them is moved on instead; if there are only greatest characters, the range has no end.
Induction on the reversed prefix follows the program in this. -/

section Ranges

attribute [local instance] Char.notLTTrans Char.ltTrichotomous Char.ltAsymm

variable {c d : Char} {cs ks stop : List Char}

/-- What lies between a text and the same text with its last character moved on starts with the
text. -/
theorem prefix_of_between (next : ∀ e : Char, e < d → e = c ∨ e < c) (low : ¬ ks < cs ++ [c])
    (high : ks < cs ++ [d]) : cs ++ [c] <+: ks := by
  induction cs generalizing ks with
  | nil =>
      cases ks with
      | nil => exact absurd (List.nil_lt_cons c []) low
      | cons k ks =>
          rw [List.nil_append, List.cons_lt_cons_iff] at low high
          rcases high with high | ⟨rfl, high⟩
          · rcases next k high with rfl | behind
            · exact ⟨ks, rfl⟩
            · exact absurd (.inl behind) low
          · exact absurd high (List.not_lt_nil ks)
  | cons x cs ih =>
      cases ks with
      | nil => exact absurd (List.nil_lt_cons x (cs ++ [c])) low
      | cons k ks =>
          rw [List.cons_append, List.cons_lt_cons_iff] at low high
          rcases high with high | ⟨rfl, high⟩
          · exact absurd (.inl high) low
          · exact (List.prefix_cons_inj k).mpr (ih (fun lt => low (.inr ⟨rfl, lt⟩)) high)

/-- Behind a greatest character there is nothing but what starts with it. -/
theorem prefix_of_greatest (greatest : ∀ e : Char, ¬ c < e) (low : ¬ cs ++ ks < cs ++ [c]) :
    cs ++ [c] <+: cs ++ ks := by
  have low : ¬ ks < [c] := fun lt => low (List.append_left_lt lt)
  refine (List.prefix_append_right_inj cs).mpr ?_
  cases ks with
  | nil => exact absurd (List.nil_lt_cons c []) low
  | cons k ks =>
      rw [List.cons_lt_cons_iff, not_or] at low
      obtain rfl : c = k := Char.le_antisymm (Char.not_lt.mp low.1) (Char.not_lt.mp (greatest k))
      exact ⟨ks, rfl⟩

/-- The texts from `pre` up to the end of its range are those that start with it; `cs` is the text
from its end. -/
theorem prefix_iff_of_bump? (cs : List Char) :
    cs.reverse <+: ks ↔
      ¬ ks < cs.reverse ∧ ∀ stop, bump? cs = some stop → ks < stop.reverse := by
  induction cs with
  | nil => simp [bump?]
  | cons c cs ih =>
      rw [List.reverse_cons, bump?]
      cases next : nextChar? c with
      | some d =>
          obtain ⟨lt, least⟩ := lt_nextChar? next
          simp only [Option.some.injEq, forall_eq', List.reverse_cons]
          constructor
          · intro h
            refine ⟨h.le, ?_⟩
            obtain ⟨rest, rfl⟩ := h
            rw [List.append_assoc]
            exact List.append_left_lt (List.cons_lt_cons_iff.mpr (.inl lt))
          · rintro ⟨low, high⟩
            exact prefix_of_between least low high
      | none =>
          -- nothing comes behind the last character, so the range ends where the shorter one does
          constructor
          · intro h
            have shorter := ih.mp ((List.prefix_append _ _).trans h)
            exact ⟨h.le, shorter.2⟩
          · rintro ⟨low, high⟩
            have lower : ¬ ks < cs.reverse := List.le_trans List.le_append_left low
            obtain ⟨rest, rfl⟩ := ih.mpr ⟨lower, high⟩
            exact prefix_of_greatest (not_lt_of_nextChar? next) low

end Ranges

/-- The keys that a scan reads are those that start with the prefix. -/
theorem mem_range_iff {pre key : String} :
    startsWith pre key ↔
      pre ≤ key ∧ ∀ stop, prefixEnd? pre = some stop → key < stop := by
  have range := @prefix_iff_of_bump? key.toList pre.toList.reverse
  rw [List.reverse_reverse] at range
  rw [startsWith_iff, range, prefixEnd?]
  refine and_congr Iff.rfl ?_
  simp only [Option.map_eq_some_iff, forall_exists_index, and_imp, forall_apply_eq_imp_iff₂]
  refine forall₂_congr fun stop _ => ?_
  show key.toList < _ ↔ key.toList < (String.ofList _).toList
  rw [String.toList_ofList]

/-- What lies between a text and another one that starts with it starts with it too. -/
theorem startsWith_of_between {pre key k : String} (start : startsWith pre key) (low : pre ≤ k)
    (high : k ≤ key) : startsWith pre k := by
  obtain ⟨-, stop⟩ := mem_range_iff.mp start
  exact mem_range_iff.mpr ⟨low, fun s hs => Std.lt_of_le_of_lt high (stop s hs)⟩

namespace Table

/-- **A scan is a filter of the rows.** -/
theorem scan_eq_filter (t : Table) (pre : String) :
    t.scan pre = t.rows.filter fun r => startsWith pre r.1 := by
  rw [scan]
  split
  · next stop h =>
    refine List.filter_congr fun r _ => ?_
    rw [Bool.eq_iff_iff, mem_range_iff, h]
    simp
  · next h =>
    refine List.filter_congr fun r _ => ?_
    rw [Bool.eq_iff_iff, mem_range_iff, h]
    simp

theorem sorted_scan (t : Table) (pre : String) : (t.scan pre).Pairwise fun r q => r.1 < q.1 := by
  rw [scan_eq_filter]
  exact t.sorted.filter _

theorem mem_scan_iff {t : Table} {pre : String} {r : Row} :
    r ∈ t.scan pre ↔ r ∈ t.rows ∧ startsWith pre r.1 := by
  rw [scan_eq_filter, List.mem_filter]

/-- A floor look-up is the last row of a scan that is not behind the key. -/
theorem floor_eq_getLast? (t : Table) {pre key : String} (start : startsWith pre key) :
    t.floor pre key = ((t.scan pre).filter fun r => r.1 ≤ key).getLast? := by
  rw [floor, if_pos start, scan_eq_filter, List.filter_filter]
  refine congrArg List.getLast? (List.filter_congr fun r _ => ?_)
  rw [Bool.eq_iff_iff, Bool.and_eq_true, Bool.and_eq_true, and_comm]
  refine and_congr_right fun high => ?_
  have high : r.1 ≤ key := of_decide_eq_true high
  rw [decide_eq_true_eq]
  exact ⟨fun low => startsWith_of_between start low high, fun starts => (mem_range_iff.mp starts).1⟩

theorem mem_of_floor {t : Table} {pre key : String} {r : Row} (h : t.floor pre key = some r) :
    r ∈ t.rows := by
  rw [floor] at h
  split at h
  · exact (List.mem_filter.mp (List.mem_of_getLast? h)).1
  · cases h

end Table

end ScopedConfig
