import ScopedConfig.Proofs.Invariants

/-!
# What is written stays

Whatever calls do, a scope that is recorded stays recorded, its working revision never goes down, and
nothing at or below that revision is added or changed. `Ledger.Keeps` says so of two ledgers and
`Table.Keeps` of two tables; calls served keep a ledger (`Ledger.keeps_of_serves`), and so does
everything that happens after some moment of a schedule (`System.run_keeps`).
-/

namespace ScopedConfig

open Layout Store

/-! ## Ledgers

An activation moves the active revision of a scope and leaves the working one, an advance moves the
working one forward. A batch does the latter for each of its scopes and enters values at the new
revisions, above all that were written. -/

namespace Ledger

/-- What the first ledger has written is written in the second one too. -/
structure Keeps (l l' : Ledger) : Prop where
  pointers : ∀ s p, l.pointers s = some p →
    ∃ p', l'.pointers s = some p' ∧ p.working ≤ p'.working
  entries : ∀ name s p n, l.pointers s = some p → n ≤ p.working →
    l'.entries name s n = l.entries name s n

variable {l l' l'' : Ledger} {s : Scope}

namespace Keeps

theorem refl (l : Ledger) : l.Keeps l where
  pointers _ p hp := ⟨p, hp, UInt64.le_refl _⟩
  entries _ _ _ _ _ _ := rfl

theorem trans (h : l.Keeps l') (h' : l'.Keeps l'') : l.Keeps l'' where
  pointers s p hp := by
    obtain ⟨p', hp', le⟩ := h.pointers s p hp
    obtain ⟨p'', hp'', le'⟩ := h'.pointers s p' hp'
    exact ⟨p'', hp'', UInt64.le_trans le le'⟩
  entries name s p n hp written := by
    obtain ⟨p', hp', le⟩ := h.pointers s p hp
    rw [h'.entries name s p' n hp' (UInt64.le_trans written le), h.entries name s p n hp written]

end Keeps

/-- Pointers that do not go back. -/
theorem keeps_set {p : Pointers} (le : ∀ q, l.pointers s = some q → q.working ≤ p.working) :
    l.Keeps (l.set s p) where
  pointers c q hq := by
    rw [pointers_set]
    by_cases same : c = s
    · rw [if_pos same]
      exact ⟨p, rfl, le q (same ▸ hq)⟩
    · rw [if_neg same]
      exact ⟨q, hq, UInt64.le_refl _⟩
  entries _ _ _ _ _ _ := by rw [entries_set]

/-- A batch enters its values above all revisions written. -/
theorem keeps_write (roomy : l.Roomy) (batch : BatchId) (placed : List Placed) :
    l.Keeps (l.write batch placed) where
  pointers s p hp := by
    rw [pointers_write]
    split
    · exact ⟨_, rfl, UInt64.le_of_lt (roomy.working_lt_next hp)⟩
    · exact ⟨p, hp, UInt64.le_refl _⟩
  entries name s p n hp written := by
    refine entries_write_of_ne fun next => ?_
    rw [next] at written
    exact UInt64.not_lt.mpr written (roomy.working_lt_next hp)

/-- **What is served keeps what is written.** -/
theorem keeps_of_serves (roomy : l.Roomy) {c : Call} {r : Reply} (serves : l.Serves c r l') :
    l.Keeps l' := by
  rcases effect_of_serves serves with ⟨batch, placed, rfl, -⟩ | ⟨s, p, n, rfl, hp, -, -⟩ |
    ⟨s, rfl, -⟩
  · exact keeps_write roomy batch placed
  · rw [activate_eq hp]
    refine keeps_set fun q hq => ?_
    cases hp.symm.trans hq
    exact UInt64.le_refl _
  · exact keeps_set fun q hq => UInt64.le_of_lt (roomy.working_lt_next hq)

end Ledger

/-! ## Tables

The same in terms of records and entries, so that a statement about tables need not mention the
ledgers behind them. -/

namespace Table

/-- What the first table has written is written in the second one too, under the same keys. -/
structure Keeps (t t' : Table) : Prop where
  record : ∀ i r, t.HasRecord i r →
    ∃ r', t'.HasRecord i r' ∧ r'.scope = r.scope ∧ r.working ≤ r'.working
  entry : ∀ name i r n, t.HasRecord i r → n ≤ r.working →
    t'.get? (entryKey name i n) = t.get? (entryKey name i n)

variable {U : Scope → Prop} {t t' : Table} {l l' : Ledger}

/-- **Tables keep what their ledgers keep.** -/
theorem Depicts.keeps (sep : Scope.Separated U) (h : t.Depicts U l) (h' : t'.Depicts U l')
    (keeps : l.Keeps l') : t.Keeps t' where
  record i r hr := by
    obtain ⟨s, p, used, rfl, hp, rfl⟩ := (h.hasRecord_iff sep).mp hr
    obtain ⟨p', hp', le⟩ := keeps.pointers _ p hp
    exact ⟨p'.record s.canonical, (h'.hasRecord_iff sep).mpr ⟨s, p', used, rfl, hp', rfl⟩, rfl, le⟩
  entry name i r n hr written := by
    obtain ⟨s, p, used, rfl, hp, rfl⟩ := (h.hasRecord_iff sep).mp hr
    rw [h'.entry name s n used, keeps.entries name s.canonical p n hp written,
      h.entry name s n used]

end Table

/-! ## Runs

A schedule and a continuation of it have logs of which one is a prefix of the other, and so a trace
of the longer log goes through the table of the shorter one. A relation of ledgers that every call
keeps relates the two tables (`System.run_related`). -/

namespace Traces

variable {U : Scope → Prop} {cs cs' : List Commit} {rs : List Reply} {t : Table} {l : Ledger}

/-- The last commit tells the table. -/
theorem table_eq (h : Traces U cs rs t l) : t = (cs.getLast?.map Commit.after).getD .empty := by
  cases h with
  | start => rfl
  | commit => rw [List.getLast?_concat]; rfl

/-- What the first commits of a trace lead to is related to what all of them lead to, if each of the
others relates the ledgers before and after it. -/
theorem exists_of_append {R : Ledger → Ledger → Prop} (refl : ∀ l, R l l)
    (trans : ∀ l l' l'', R l l' → R l' l'' → R l l'') (h : Traces U (cs ++ cs') rs t l)
    (step : ∀ k ∈ cs', ∀ l r l', k.before.Depicts U l → l.Serves k.call r l' → R l l') :
    ∃ rs₀ t₀ l₀, Traces U cs rs₀ t₀ l₀ ∧ R l₀ l := by
  -- by induction on all the commits, which are the first ones just if none is left
  generalize all_eq : cs ++ cs' = all at h
  induction h generalizing cs' with
  | start =>
      rw [List.append_eq_nil_iff.mp all_eq |>.1]
      exact ⟨[], .empty, .empty, .start, refl _⟩
  | commit earlier within does serves depicts ih =>
      rcases List.eq_nil_or_concat cs' with rfl | ⟨rest, k, rfl⟩
      · rw [List.append_nil] at all_eq
        rw [all_eq]
        exact ⟨_, _, _, earlier.commit within does serves depicts, refl _⟩
      · rw [List.concat_eq_append] at all_eq step
        rw [← List.append_assoc] at all_eq
        obtain ⟨earlier_eq, last_eq⟩ := List.append_inj' all_eq rfl
        cases last_eq
        obtain ⟨rs₀, t₀, l₀, first, related⟩ :=
          ih (fun k hk => step k (List.mem_append_left _ hk)) earlier_eq
        refine ⟨rs₀, t₀, l₀, first, trans _ _ _ related ?_⟩
        exact step _ (List.mem_append_right _ (List.mem_singleton_self _)) _ _ _ earlier.depicts serves

end Traces

namespace System

variable {ι : Type} [DecidableEq ι] {U : Scope → Prop}

/-- The log only gets longer. -/
theorem log_prefix_step (σ : System ι) (m : Move ι) : σ.log <+: (σ.step m).log := by
  cases m with
  | call h c =>
      rw [step]
      split <;> exact List.prefix_refl _
  | serve h =>
      rw [step]
      split
      · simp only
        split
        · exact List.prefix_append _ _
        · exact List.prefix_refl _
      · exact List.prefix_refl _
  | fail h e =>
      rw [step]
      split <;> exact List.prefix_refl _

/-- A move puts at most one transaction through. -/
theorem length_log_step_le (σ : System ι) (m : Move ι) : (σ.step m).log.length ≤ σ.log.length + 1 := by
  cases m with
  | call h c =>
      rw [step]
      split <;> exact Nat.le_succ _
  | serve h =>
      rw [step]
      split
      · simp only
        split
        · exact Nat.le_of_eq List.length_append
        · exact Nat.le_succ _
      · exact Nat.le_succ _
  | fail h e =>
      rw [step]
      split <;> exact Nat.le_succ _

theorem length_log_run_le (moves : List (Move ι)) : (run moves).log.length ≤ moves.length := by
  suffices ∀ σ : System ι, (moves.foldl step σ).log.length ≤ σ.log.length + moves.length by
    simpa [run, start] using this start
  intro σ
  induction moves generalizing σ with
  | nil => exact Nat.le_refl _
  | cons m moves ih =>
      rw [List.foldl_cons, List.length_cons]
      have := ih (σ.step m)
      have := length_log_step_le σ m
      omega

/-- Fewer moves than there are revisions do not use them up. -/
theorem run_roomy_of_length (sep : Scope.Separated U) (moves : List (Move ι))
    (within : ∀ h c, .call h c ∈ moves → c.Within U) (few : moves.length + 1 < 2 ^ 64) :
    ∀ k ∈ (run moves).log, k.before.Roomy :=
  (run_roomy sep moves within
    (Nat.lt_of_le_of_lt (Nat.succ_le_succ (length_log_run_le moves)) few)).1

theorem log_prefix_run (moves more : List (Move ι)) :
    (run moves).log <+: (run (moves ++ more)).log := by
  rw [run, run, List.foldl_append]
  generalize moves.foldl step start = σ
  induction more generalizing σ with
  | nil => exact List.prefix_refl _
  | cons m more ih => exact (log_prefix_step σ m).trans (ih _)

/-- The log up to some moment and the log later, with ledgers that are related if every commit
between relates the ledgers before and after it. -/
theorem run_related (sep : Scope.Separated U) (moves more : List (Move ι))
    (within : ∀ h c, .call h c ∈ moves ++ more → c.Within U) {R : Ledger → Ledger → Prop}
    (refl : ∀ l, R l l) (trans : ∀ l l' l'', R l l' → R l' l'' → R l l'')
    (step : ∀ k ∈ (run (moves ++ more)).log.drop (run moves).log.length, ∀ l r l',
      k.before.Depicts U l → l.Serves k.call r l' → R l l') :
    ∃ rs rs' l l', Traces U (run moves).log rs (run moves).table l ∧
      Traces U (run (moves ++ more)).log rs' (run (moves ++ more)).table l' ∧ R l l' := by
  obtain ⟨rs, l, first⟩ := run_traced sep moves fun h c hc => within h c (List.mem_append_left _ hc)
  obtain ⟨rs', l', second⟩ := run_traced sep (moves ++ more) within
  obtain ⟨ks, log_eq⟩ := log_prefix_run moves more
  have trace := second.trace
  rw [← log_eq, List.drop_left] at step
  rw [← log_eq] at trace
  obtain ⟨rs₀, t₀, l₀, cut, related⟩ := trace.exists_of_append refl trans step
  -- the table is told by the log, so the trace cut off is one of the table at that moment
  have table_eq : t₀ = (run moves).table := cut.table_eq.trans first.trace.table_eq.symm
  exact ⟨rs₀, rs', l₀, l', table_eq ▸ cut, second.trace, related⟩

/-- **Whatever happens later, what is written stays.** -/
theorem run_keeps (sep : Scope.Separated U) (moves more : List (Move ι))
    (within : ∀ h c, .call h c ∈ moves ++ more → c.Within U)
    (fits : ∀ h c, .call h c ∈ moves ++ more → c.Fits)
    (roomy : ∀ k ∈ (run (moves ++ more)).log, k.before.Roomy) :
    ∃ l l', (run moves).table.Depicts U l ∧ (run (moves ++ more)).table.Depicts U l' ∧
      l.Coherent ∧ l'.Coherent ∧ l.Keeps l' := by
  have later (k : Commit) (hk : k ∈ (run (moves ++ more)).log.drop (run moves).log.length)
      (l : Ledger) (r : Reply) (l' : Ledger) (depicts : k.before.Depicts U l)
      (serves : l.Serves k.call r l') : l.Keeps l' :=
    Ledger.keeps_of_serves (depicts.roomy sep (roomy k (List.mem_of_mem_drop hk))) serves
  obtain ⟨rs, rs', l, l', first, second, keeps⟩ :=
    run_related sep moves more within Ledger.Keeps.refl (fun _ _ _ => .trans) later
  have earlier := (log_prefix_run moves more).subset
  have stored := (run_each (moves ++ more) fits).2
  exact ⟨l, l', first.depicts, second.depicts,
    first.coherent sep (fun k hk => stored k (earlier hk)) fun k hk => roomy k (earlier hk),
    second.coherent sep stored roomy, keeps⟩

end System

end ScopedConfig
