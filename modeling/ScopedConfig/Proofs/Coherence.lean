import ScopedConfig.Proofs.Calls

/-!
# Coherent ledgers

What is right about every ledger that calls lead to, as long as the working revisions have not run
through all their numbers (`Ledger.Roomy`): revisions count from one, the active one has been written,
every value stands at a revision that has been written (`Orderly.serves`), and those at one revision
of a scope come from one batch (`Coherent.serves`). Without advances, something stands at every
revision (`Gapless.serves`).
-/

namespace ScopedConfig

open Store

/-- The values of a call can be stored. -/
def Call.Fits : Call → Prop
  | .write _ _ assignments => ∀ a ∈ assignments, a.value.Fits
  | _ => True

instance : DecidablePred Call.Fits
  | .write _ _ assignments => inferInstanceAs (Decidable (∀ a ∈ assignments, a.value.Fits))
  | .activate .. | .advance .. | .setActive .. => isTrue trivial

/-- Whether a call takes a revision without writing anything at it. -/
def Call.isAdvance : Call → Bool
  | .advance .. => true
  | _ => false

namespace Ledger

/-- Every scope has another revision. -/
def Roomy (l : Ledger) : Prop := ∀ s p, l.pointers s = some p → p.working.toNat + 1 < 2 ^ 64

/-- Nothing points at or stands at a revision that has not been written. -/
structure Orderly (l : Ledger) : Prop where
  working : ∀ s p, l.pointers s = some p → p.working ≠ 0
  active : ∀ s p n, l.pointers s = some p → p.active = some n → n ≠ 0 ∧ n ≤ p.working
  entry : ∀ name s n e, l.entries name s n = some e →
    ∃ p, l.pointers s = some p ∧ n ≠ 0 ∧ n ≤ p.working

structure Coherent (l : Ledger) : Prop where
  working : ∀ s p, l.pointers s = some p → p.working ≠ 0
  active : ∀ s p n, l.pointers s = some p → p.active = some n → n ≠ 0 ∧ n ≤ p.working
  entry : ∀ name s n e, l.entries name s n = some e →
    ∃ p, l.pointers s = some p ∧ n ≠ 0 ∧ n ≤ p.working
  batch : ∀ name name' s n e e', l.entries name s n = some e → l.entries name' s n = some e' →
    e.2 = e'.2
  fits : ∀ name s n e, l.entries name s n = some e → e.1.Fits

/-- Something stands at every revision. -/
def Gapless (l : Ledger) : Prop :=
  ∀ s p n, l.pointers s = some p → n ≠ 0 → n ≤ p.working → ∃ name e, l.entries name s n = some e

variable {l l' : Ledger} {s : Scope} {n : Revision} {m : Nat} {batch : BatchId}
  {placed : List Placed}

theorem orderly_empty : empty.Orderly where
  working _ _ h := by cases h
  active _ _ _ h := by cases h
  entry _ _ _ _ h := by cases h

theorem Coherent.orderly (h : l.Coherent) : l.Orderly := ⟨h.working, h.active, h.entry⟩

theorem coherent_empty : empty.Coherent :=
  { orderly_empty with
    batch := fun _ _ _ _ _ _ h => by cases h
    fits := fun _ _ _ _ h => by cases h }

theorem gapless_empty : empty.Gapless := fun _ _ _ h => by cases h

/-! ## The next revision

The next revision is one more than the working one, and one where there is none. With room above the
working revision it is not zero and nothing stands at it. How far the working revisions have come is
counted by `Upto`, which grows by one with each call at most (`Upto.serves`), so that few enough
calls cannot use the numbers up. -/

namespace Roomy

/-- The next revision as a number. -/
theorem toNat_next (h : l.Roomy) :
    (l.next s).toNat = ((l.pointers s).map fun p => p.working.toNat).getD 0 + 1 := by
  rw [next]
  cases hp : l.pointers s with
  | none => rfl
  | some p =>
      have := h s p hp
      show (p.working + 1).toNat = p.working.toNat + 1
      rw [UInt64.toNat_add]
      simp
      omega

theorem next_ne_zero (h : l.Roomy) : l.next s ≠ 0 := by
  intro zero
  have := h.toNat_next (s := s)
  rw [zero] at this
  simp at this

/-- It is past the working one. -/
theorem working_lt_next (h : l.Roomy) {p : Pointers} (hp : l.pointers s = some p) :
    p.working < l.next s := by
  rw [UInt64.lt_iff_toNat_lt, h.toNat_next, hp]
  exact Nat.lt_succ_self _

/-- A revision before the next one has been written. -/
theorem exists_of_lt_next (h : l.Roomy) (positive : n ≠ 0) (lt : n < l.next s) :
    ∃ p, l.pointers s = some p ∧ n ≤ p.working := by
  rw [UInt64.lt_iff_toNat_lt, h.toNat_next] at lt
  cases hp : l.pointers s with
  | none =>
      rw [hp] at lt
      have zero : n.toNat = 0 := by simpa using lt
      exact absurd (UInt64.toNat_inj.mp zero) positive
  | some p =>
      rw [hp] at lt
      refine ⟨p, rfl, UInt64.le_iff_toNat_le.mpr ?_⟩
      simpa using Nat.le_of_lt_succ lt

end Roomy

/-- No working revision is beyond a number. -/
def Upto (l : Ledger) (m : Nat) : Prop := ∀ s p, l.pointers s = some p → p.working.toNat ≤ m

theorem upto_empty : empty.Upto 0 := fun _ _ h => by cases h

theorem Upto.next (h : l.Upto m) (s : Scope) : (l.next s).toNat ≤ m + 1 := by
  rw [Ledger.next]
  cases hp : l.pointers s with
  | none => exact Nat.le_add_left 1 m
  | some p =>
      have le := h s p hp
      show (p.working + 1).toNat ≤ m + 1
      rw [UInt64.toNat_add]
      exact Nat.le_trans (Nat.mod_le _ _) (Nat.succ_le_succ le)

theorem Upto.set (h : l.Upto m) {p : Pointers} (le : p.working.toNat ≤ m + 1) :
    (l.set s p).Upto (m + 1) := by
  intro c q hq
  rw [pointers_set] at hq
  split at hq
  · cases hq
    exact le
  · exact Nat.le_succ_of_le (h c q hq)

/-- Nothing stands at the next revision, not even if the numbers have come to their end: then the
next one is zero. -/
theorem Orderly.entries_next (h : l.Orderly) (name : String) (s : Scope) :
    l.entries name s (l.next s) = none := by
  cases he : l.entries name s (l.next s) with
  | none => rfl
  | some e =>
      obtain ⟨p, hp, positive, written⟩ := h.entry name s _ e he
      rw [next, hp] at positive written
      -- An entry there would stand at a revision not above the working one, so the sum has run over
      -- and is zero, which no entry stands at.
      have wraps : p.working + 1 ≤ p.working := written
      have nonzero : p.working + 1 ≠ 0 := positive
      rw [UInt64.le_iff_toNat_le, UInt64.toNat_add] at wraps
      rw [Ne, ← UInt64.toNat_inj, UInt64.toNat_add] at nonzero
      have := p.working.toNat_lt
      simp at wraps nonzero
      omega

/-! ## Pointers moved

An advance and an activation move the pointers of one scope and touch no value. What is to be shown
is that the working revision does not go back and that the active one is not beyond it. -/

/-- Revisions that were written stay written. -/
theorem Orderly.set (h : l.Orderly) {p : Pointers} (working : p.working ≠ 0)
    (active : ∀ n, p.active = some n → n ≠ 0 ∧ n ≤ p.working)
    (le : ∀ q, l.pointers s = some q → q.working ≤ p.working) : (l.set s p).Orderly where
  working c q hq := by
    rw [pointers_set] at hq
    split at hq
    · cases hq
      exact working
    · exact h.working c q hq
  active c q n hq hn := by
    rw [pointers_set] at hq
    split at hq
    · cases hq
      exact active n hn
    · exact h.active c q n hq hn
  entry name c n e he := by
    obtain ⟨q, hq, positive, written⟩ := h.entry name c n e he
    rw [pointers_set]
    by_cases same : c = s
    · rw [if_pos same]
      exact ⟨p, rfl, positive, UInt64.le_trans written (le q (same ▸ hq))⟩
    · rw [if_neg same]
      exact ⟨q, hq, positive, written⟩

theorem Orderly.advance (h : l.Orderly) (roomy : l.Roomy) : (l.advance s).Orderly := by
  refine h.set roomy.next_ne_zero (fun n hn => ?_) fun q hq => UInt64.le_of_lt (roomy.working_lt_next hq)
  obtain ⟨p, hp, hn⟩ := Option.bind_eq_some_iff.mp hn
  obtain ⟨positive, written⟩ := h.active s p n hp hn
  exact ⟨positive, UInt64.le_trans written (UInt64.le_of_lt (roomy.working_lt_next hp))⟩

/-- To activate a revision that was written keeps the ledger in order, as the working revision
stays. -/
theorem Orderly.activate (h : l.Orderly) {p : Pointers} (hp : l.pointers s = some p)
    (positive : n ≠ 0) (written : n ≤ p.working) : (l.activate s n).Orderly := by
  rw [activate_eq hp]
  refine h.set (h.working s p hp) (fun m hm => ?_) fun q hq => ?_
  · cases hm
    exact ⟨positive, written⟩
  · cases hp.symm.trans hq
    exact UInt64.le_refl _

/-- An activation takes no revision. -/
theorem Gapless.activate (h : l.Gapless) {p : Pointers} (hp : l.pointers s = some p) :
    (l.activate s n).Gapless := by
  rw [activate_eq hp]
  intro c q m hq positive written
  rw [pointers_set] at hq
  split at hq
  · next same =>
    cases hq
    exact h c p m (same ▸ hp) positive written
  · exact h c q m hq positive written

/-! ## Batches written

A batch puts the next revision of every scope that it names as the working one, and its values
there. Nothing stood there before (`Orderly.entries_next`), so no entry is replaced and the entries
at one revision are those of one batch. -/

/-- A batch moves the pointers of the scopes it sets something in, and leaves which revision is
active. -/
theorem pointers_write :
    (l.write batch placed).pointers s =
      if placed.any fun p => p.scope.canonical = s then
        some ⟨l.next s, (l.pointers s).bind Pointers.active⟩
      else l.pointers s := by
  rw [write]
  simp only [pointers_advance, if_true]

/-- A value in the ledger after a batch is one of the batch, at the revision that it makes, or was
there before. -/
theorem entries_write_cases {name : String} {e : Value × BatchId}
    (h : (l.write batch placed).entries name s n = some e) :
    (∃ p ∈ placed, p.assignment.name = name ∧ p.scope.canonical = s ∧ n = l.next s ∧
      e = (p.assignment.value, batch)) ∨ l.entries name s n = some e := by
  rw [write] at h
  simp only at h
  split at h
  · next p hp =>
    have found := List.find?_some hp
    simp only [Bool.and_eq_true, decide_eq_true_eq] at found
    split at h
    · next eq =>
      cases h
      exact .inl ⟨p, List.mem_of_find?_eq_some hp, found.1, found.2, eq, rfl⟩
    · exact .inr h
  · exact .inr h

/-- What stands at revisions before the next one stays. -/
theorem entries_write_of_ne {name : String} (ne : n ≠ l.next s) :
    (l.write batch placed).entries name s n = l.entries name s n := by
  rw [write]
  simp only
  split
  · rw [if_neg ne]
  · rfl

/-- Where a batch sets something, one of its values stands at the revision that it makes. -/
theorem exists_entries_write {p : Placed} (hp : p ∈ placed) (hs : p.scope.canonical = s) :
    ∃ q ∈ placed, q.assignment.name = p.assignment.name ∧ q.scope.canonical = s ∧
      (l.write batch placed).entries p.assignment.name s (l.next s) =
        some (q.assignment.value, batch) := by
  have found : (placed.find? fun q => q.assignment.name = p.assignment.name &&
      q.scope.canonical = s).isSome := List.find?_isSome.mpr ⟨p, hp, by simp [hs]⟩
  obtain ⟨q, hq⟩ := Option.isSome_iff_exists.mp found
  have fits := List.find?_some hq
  simp only [Bool.and_eq_true, decide_eq_true_eq] at fits
  refine ⟨q, List.mem_of_find?_eq_some hq, fits.1, fits.2, ?_⟩
  rw [write]
  simp only [hq, if_true]

theorem Orderly.write (h : l.Orderly) (roomy : l.Roomy) : (l.write batch placed).Orderly where
  working s p hp := by
    rw [pointers_write] at hp
    split at hp
    · cases hp
      exact roomy.next_ne_zero
    · exact h.working s p hp
  active s p n hp hn := by
    rw [pointers_write] at hp
    split at hp
    · cases hp
      obtain ⟨q, hq, hn⟩ := Option.bind_eq_some_iff.mp hn
      obtain ⟨positive, written⟩ := h.active s q n hq hn
      exact ⟨positive, UInt64.le_trans written (UInt64.le_of_lt (roomy.working_lt_next hq))⟩
    · exact h.active s p n hp hn
  entry name s n e he := by
    rw [pointers_write]
    rcases entries_write_cases he with ⟨p, hp, -, hs, rfl, -⟩ | he
    · rw [if_pos (List.any_eq_true.mpr ⟨p, hp, by simpa using hs⟩)]
      exact ⟨_, rfl, roomy.next_ne_zero, UInt64.le_refl _⟩
    · -- an old entry: its scope may have come to the next revision, which is above
      obtain ⟨q, hq, positive, written⟩ := h.entry name s n e he
      split
      · exact ⟨_, rfl, positive, UInt64.le_trans written (UInt64.le_of_lt (roomy.working_lt_next hq))⟩
      · exact ⟨q, hq, positive, written⟩

/-- A new entry has the batch that wrote it, and one that was there before stands at another
revision than the new ones. -/
theorem Coherent.write (h : l.Coherent) (roomy : l.Roomy)
    (fits : ∀ p ∈ placed, p.assignment.value.Fits) : (l.write batch placed).Coherent := by
  refine { h.orderly.write roomy with batch := ?_, fits := ?_ }
  · intro name name' s n e e' he he'
    -- an older value is not at the next revision, so the two are of this batch or both older
    have old : ∀ name e, l.entries name s n = some e → n ≠ l.next s := by
      rintro name e he rfl
      rw [h.orderly.entries_next] at he
      cases he
    rcases entries_write_cases he with ⟨p, -, -, -, new, rfl⟩ | he
    · rcases entries_write_cases he' with ⟨p', -, -, -, -, rfl⟩ | he'
      · rfl
      · exact absurd new (old name' e' he')
    · rcases entries_write_cases he' with ⟨p', -, -, -, new, rfl⟩ | he'
      · exact absurd new (old name e he)
      · exact h.batch name name' s n e e' he he'
  · intro name s n e he
    rcases entries_write_cases he with ⟨p, hp, -, -, -, rfl⟩ | he
    · exact fits p hp
    · exact h.fits name s n e he

/-- The revision that a batch takes is one at which it sets something. -/
theorem Gapless.write (h : l.Gapless) (roomy : l.Roomy) : (l.write batch placed).Gapless := by
  intro s p n hp positive written
  rw [pointers_write] at hp
  by_cases named : placed.any fun p => p.scope.canonical = s
  · rw [if_pos named] at hp
    cases hp
    by_cases new : n = l.next s
    · obtain ⟨q, hq, hs⟩ := List.any_eq_true.mp named
      have scope : q.scope.canonical = s := by simpa using hs
      obtain ⟨q', -, -, -, he⟩ := exists_entries_write hq scope
      exact ⟨_, _, new ▸ he⟩
    · -- what stands at an older revision is not overwritten
      have lt : n < l.next s := UInt64.lt_of_le_of_ne written new
      obtain ⟨q, hq, before⟩ := roomy.exists_of_lt_next positive lt
      obtain ⟨name, e, he⟩ := h s q n hq positive before
      exact ⟨name, e, (entries_write_of_ne new).trans he⟩
  · rw [if_neg named] at hp
    obtain ⟨name, e, he⟩ := h s p n hp positive written
    have old : n ≠ l.next s := by
      rintro rfl
      exact UInt64.not_lt.mpr written (roomy.working_lt_next hp)
    exact ⟨name, e, (entries_write_of_ne old).trans he⟩

/-! ## Calls served

There are three things that a call can do to a ledger (`effect_of_serves`), whichever of the four
calls it is. Each invariant is one case for each of them. -/

/-- What a call does to a ledger: it writes a batch, activates a revision that has been written, or
takes a revision without writing anything. -/
theorem effect_of_serves {c : Call} {r : Reply} (serves : l.Serves c r l') :
    (∃ batch placed, l' = l.write batch placed ∧
      (c.Fits → ∀ p ∈ placed, p.assignment.value.Fits)) ∨
    (∃ s p n, l' = l.activate s n ∧ l.pointers s = some p ∧ n ≠ 0 ∧ n ≤ p.working) ∨
    (∃ s, l' = l.advance s ∧ c.isAdvance = true) := by
  cases serves.answeredBy with
  | write policy ids assignments r =>
      obtain ⟨placed, n, hplace, -, rfl⟩ := serves
      obtain ⟨rfl, -⟩ := place_eq_ok_iff.mp hplace
      exact .inl ⟨ids n, placed, rfl, fun fits p hp => fits _ (List.mem_map_of_mem hp)⟩
  | activate policy a r =>
      obtain ⟨s, p, n, -, activates, -, rfl⟩ := serves
      exact .inr (.inl ⟨_, p, n, rfl, activates.recorded, activates.positive, activates.written⟩)
  | advance policy s n =>
      obtain ⟨-, rfl⟩ := serves
      exact .inr (.inr ⟨_, rfl, rfl⟩)
  | setActive policy s n =>
      obtain ⟨p, hp, positive, written, rfl⟩ := serves
      exact .inr (.inl ⟨_, p, n, rfl, hp, positive, written⟩)

/-- **What is served stays orderly.** -/
theorem Orderly.serves (h : l.Orderly) (roomy : l.Roomy) {c : Call} {r : Reply}
    (serves : l.Serves c r l') : l'.Orderly := by
  rcases effect_of_serves serves with ⟨batch, placed, rfl, -⟩ |
    ⟨s, p, n, rfl, hp, positive, written⟩ | ⟨s, rfl, -⟩
  · exact h.write roomy
  · exact h.activate hp positive written
  · exact h.advance roomy

theorem Coherent.activate (h : l.Coherent) {p : Pointers} (hp : l.pointers s = some p)
    (positive : n ≠ 0) (written : n ≤ p.working) : (l.activate s n).Coherent := by
  have orderly := h.orderly.activate hp positive written
  rw [activate_eq hp] at orderly ⊢
  exact { orderly with batch := h.batch, fits := h.fits }

/-- **What is served stays coherent.** -/
theorem Coherent.serves (h : l.Coherent) (roomy : l.Roomy) {c : Call} {r : Reply} (fits : c.Fits)
    (serves : l.Serves c r l') : l'.Coherent := by
  rcases effect_of_serves serves with ⟨batch, placed, rfl, stored⟩ |
    ⟨s, p, n, rfl, hp, positive, written⟩ | ⟨s, rfl, -⟩
  · exact h.write roomy (stored fits)
  · exact h.activate hp positive written
  · exact { h.orderly.advance roomy with batch := h.batch, fits := h.fits }

/-- **Without advances nothing is left out.** -/
theorem Gapless.serves (h : l.Gapless) (roomy : l.Roomy) {c : Call} {r : Reply}
    (writes : c.isAdvance = false) (serves : l.Serves c r l') : l'.Gapless := by
  rcases effect_of_serves serves with ⟨batch, placed, rfl, -⟩ | ⟨s, p, n, rfl, hp, -, -⟩ |
    ⟨s, rfl, advances⟩
  · exact h.write roomy
  · exact h.activate hp
  · rw [writes] at advances
    cases advances

/-- **A call takes at most one revision of each scope.** -/
theorem Upto.serves (h : l.Upto m) {c : Call} {r : Reply} (serves : l.Serves c r l') :
    l'.Upto (m + 1) := by
  rcases effect_of_serves serves with ⟨batch, placed, rfl, -⟩ | ⟨s, p, n, rfl, hp, -, -⟩ |
    ⟨s, rfl, -⟩
  · intro s p hp
    rw [pointers_write] at hp
    split at hp
    · cases hp
      exact h.next s
    · exact Nat.le_succ_of_le (h s p hp)
  · rw [activate_eq hp]
    exact h.set (Nat.le_succ_of_le (h s p hp))
  · exact h.set (h.next s)

end Ledger

end ScopedConfig
