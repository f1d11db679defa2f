import Mathlib.Data.List.Nodup
import Mathlib.Data.List.Perm.Subperm
import ScopedConfig.Proofs.Checks
import ScopedConfig.Proofs.Ranges
import ScopedConfig.Table.Transaction

/-!
# Tables by look-up

A table is known by what `get?` finds in it: `get?_put` says what a put changes, and rows and
look-ups are the same thing (`mem_rows_iff`). `GrowsTo` is how a table changes in the course of time,
whoever changes it: keys stay, versions go up, and a key that is still at its version still has its
value (`GrowsTo.get?_eq`). That is what an expected version is good for. `Commits` says which table a
transaction leads to if it goes through.
-/

namespace ScopedConfig.Table

variable {t t' t'' : Table} {key k : String} {value : Bytes}

/-! ## Look-ups

Rows stand in the order of their keys, without repetition. So a look-up finds what is there, a put
replaces a row or adds one in its place, and a table is known by its look-ups. -/

theorem lookup_cons {row : Row} {rows : List Row} :
    (row :: rows).lookup k = if k = row.1 then some row.2 else rows.lookup k := by
  rw [show row = (row.1, row.2) from rfl, List.lookup_cons]
  by_cases h : k = row.1
  · simp [h]
  · have : (k == row.1) = false := by simpa using h
    simp [h, this]

theorem lookup_eq_none_of_forall_lt {rows : List Row} (h : ∀ r ∈ rows, key < r.1) :
    rows.lookup key = none := by
  refine List.lookup_eq_none_iff.mpr fun r hr => ?_
  simpa using String.ne_of_lt (h r hr)

/-- A key before the first one is not there. -/
theorem lookup_eq_none_of_lt {row : Row} {rows : List Row}
    (sorted : (row :: rows).Pairwise fun a b => a.1 < b.1) (lt : key < row.1) :
    (row :: rows).lookup key = none := by
  refine lookup_eq_none_of_forall_lt fun r hr => ?_
  rcases List.mem_cons.mp hr with rfl | hr
  · exact lt
  · exact String.lt_trans lt ((List.pairwise_cons.mp sorted).1 r hr)

/-- The induction is on the rows before the place of the key. It needs them to be in order: behind
the place a key that comes earlier would not be found. -/
theorem lookup_putRow {rows : List Row} (sorted : rows.Pairwise fun a b => a.1 < b.1) :
    (putRow key value rows).lookup k =
      if k = key then some ⟨value, ((rows.lookup key).map Versioned.version).getD 0 + 1⟩
      else rows.lookup k := by
  induction rows with
  | nil => rw [putRow, lookup_cons]; rfl
  | cons row rows ih =>
      rw [putRow]
      split
      · next lt =>
        -- a key before the first one is new
        rw [lookup_eq_none_of_lt sorted lt, lookup_cons]
        rfl
      · split
        · next eq =>
          rw [lookup_cons, lookup_cons, lookup_cons, if_pos eq, ← eq]
          split <;> rfl
        · next ne =>
          rw [lookup_cons, ih (List.pairwise_cons.mp sorted).2, lookup_cons, lookup_cons,
            if_neg ne]
          by_cases h : k = key
          · rw [if_pos h, if_pos h, if_neg (h ▸ ne)]
          · rw [if_neg h, if_neg h]

/-- **A put changes what stands under its key**, and takes the next version for it. -/
theorem get?_put :
    (t.put key value).get? k =
      if k = key then some ⟨value, (t.version? key).getD 0 + 1⟩ else t.get? k :=
  lookup_putRow t.sorted

theorem get?_put_self : (t.put key value).get? key = some ⟨value, (t.version? key).getD 0 + 1⟩ := by
  rw [get?_put, if_pos rfl]

theorem get?_put_of_ne (h : k ≠ key) : (t.put key value).get? k = t.get? k := by
  rw [get?_put, if_neg h]

/-- Versions are counted for each key on its own, from one. -/
theorem version?_put :
    (t.put key value).version? k =
      if k = key then some ((t.version? key).getD 0 + 1) else t.version? k := by
  rw [version?, get?_put]
  split
  · rfl
  · rfl

theorem version?_eq_none_iff : t.version? k = none ↔ t.get? k = none := by
  rw [version?, Option.map_eq_none_iff]

@[simp] theorem get?_empty : empty.get? k = none := rfl

/-- **Rows and look-ups are the same thing.** -/
theorem mem_rows_iff {stored : Versioned} : (k, stored) ∈ t.rows ↔ t.get? k = some stored := by
  obtain ⟨rows, sorted⟩ := t
  show (k, stored) ∈ rows ↔ rows.lookup k = some stored
  induction rows with
  | nil => simp
  | cons row rows ih =>
      obtain ⟨first, rest⟩ := List.pairwise_cons.mp sorted
      rw [List.mem_cons, ih rest, lookup_cons]
      by_cases h : k = row.1
      · subst h
        have absent : rows.lookup row.1 = none := lookup_eq_none_of_forall_lt first
        simp [absent, Prod.ext_iff, eq_comm]
      · have ne : (k, stored) ≠ row := fun eq => h (congrArg Prod.fst eq)
        simp [h, ne]

/-- What stands in the order of its keys is known by which of it there is. -/
theorem eq_of_mem_iff_of_keys {α : Type} {key : α → String} {as bs : List α}
    (sorted : as.Pairwise fun a b => key a < key b) (sorted' : bs.Pairwise fun a b => key a < key b)
    (h : ∀ a, a ∈ as ↔ a ∈ bs) : as = bs := by
  have nodup {as : List α} (sorted : as.Pairwise fun a b => key a < key b) : as.Nodup :=
    sorted.imp fun lt eq => String.ne_of_lt lt (congrArg key eq)
  have perm := (List.perm_ext_iff_of_nodup (nodup sorted) (nodup sorted')).mpr h
  exact perm.eq_of_pairwise (fun a b _ _ lt gt => absurd gt (String.lt_asymm lt)) sorted sorted'

theorem rows_eq_of_mem_iff {rows rows' : List Row} (sorted : rows.Pairwise fun a b => a.1 < b.1)
    (sorted' : rows'.Pairwise fun a b => a.1 < b.1) (h : ∀ r, r ∈ rows ↔ r ∈ rows') :
    rows = rows' :=
  eq_of_mem_iff_of_keys sorted sorted' h

/-- What stands in the order of its keys has the greatest one last. -/
theorem getLast?_eq_some_iff_of_keys {α : Type} {key : α → String} {as : List α} {a : α}
    (sorted : as.Pairwise fun a b => key a < key b) :
    as.getLast? = some a ↔ a ∈ as ∧ ∀ b ∈ as, key b ≤ key a := by
  rcases as.eq_nil_or_concat with rfl | ⟨init, last, rfl⟩
  · simp
  · rw [List.concat_eq_append] at sorted ⊢
    rw [List.getLast?_concat, Option.some.injEq]
    have below : ∀ b ∈ init, key b < key last := fun b hb =>
      (List.pairwise_append.mp sorted).2.2 b hb last (List.mem_singleton_self last)
    constructor
    · rintro rfl
      refine ⟨by simp, fun b hb => ?_⟩
      rcases List.mem_append.mp hb with hb | hb
      · exact Std.le_of_lt (below b hb)
      · obtain rfl := List.mem_singleton.mp hb
        exact String.le_refl _
    · rintro ⟨mem, greatest⟩
      rcases List.mem_append.mp mem with mem | mem
      · exact absurd (greatest last (by simp)) (Std.not_le.mpr (below a mem))
      · exact (List.mem_singleton.mp mem).symm

/-- A floor look-up finds the greatest key of a scan that is not behind its own. -/
theorem floor_eq_some_iff {pre : String} {row : Row} :
    t.floor pre key = some row ↔ startsWith pre key ∧ row ∈ t.scan pre ∧ row.1 ≤ key ∧
      ∀ r ∈ t.scan pre, r.1 ≤ key → r.1 ≤ row.1 := by
  by_cases start : startsWith pre key
  · rw [floor_eq_getLast? t start, getLast?_eq_some_iff_of_keys ((t.sorted_scan pre).filter _)]
    simp [start, List.mem_filter, and_assoc]
  · simp [floor, start]

/-- A floor look-up depends on what is stored under its prefix up to its key. -/
theorem floor_eq_of_get?_eq {pre : String}
    (same : ∀ k, startsWith pre k → k ≤ key → t'.get? k = t.get? k) :
    t'.floor pre key = t.floor pre key := by
  rw [floor, floor]
  by_cases start : startsWith pre key
  · rw [if_pos start, if_pos start]
    refine congrArg List.getLast?
      (rows_eq_of_mem_iff (t'.sorted.filter _) (t.sorted.filter _) fun r => ?_)
    rw [List.mem_filter, List.mem_filter]
    refine and_congr_left fun between => ?_
    simp only [Bool.and_eq_true, decide_eq_true_eq] at between
    have stored := same r.1 (startsWith_of_between start between.1 between.2) between.2
    show (r.1, r.2) ∈ t'.rows ↔ (r.1, r.2) ∈ t.rows
    rw [mem_rows_iff, mem_rows_iff, stored]
  · rw [if_neg start, if_neg start]

/-! ## Growth

Tables change by transactions, of whomever. Growth is all that is known of a table after some time,
if nothing is known of the transactions: no key has gone, and a version stands for one value. -/

/-- The second table may be what the first one is later. -/
def GrowsTo (t t' : Table) : Prop :=
  ∀ key stored, t.get? key = some stored → ∃ stored', t'.get? key = some stored' ∧
    stored.version ≤ stored'.version ∧ (stored'.version = stored.version → stored' = stored)

namespace GrowsTo

theorem refl (t : Table) : t.GrowsTo t := fun _ stored h => ⟨stored, h, Nat.le_refl _, fun _ => rfl⟩

theorem trans (h : t.GrowsTo t') (h' : t'.GrowsTo t'') : t.GrowsTo t'' := by
  intro key stored hs
  obtain ⟨stored', hs', le, same⟩ := h key stored hs
  obtain ⟨stored'', hs'', le', same'⟩ := h' key stored' hs'
  refine ⟨stored'', hs'', Nat.le_trans le le', fun eq => ?_⟩
  -- versions never go down, so in between it was the same one
  have mid : stored'.version = stored.version := Nat.le_antisymm (eq ▸ le') le
  rw [same' (eq.trans mid.symm), same mid]

/-- A put is the one operation that changes anything. -/
theorem put (t : Table) (key : String) (value : Bytes) : t.GrowsTo (t.put key value) := by
  intro k stored hs
  by_cases h : k = key
  · subst h
    refine ⟨_, get?_put_self, ?_, ?_⟩ <;> simp [version?, hs]
  · exact ⟨stored, by rw [get?_put_of_ne h, hs], Nat.le_refl _, fun _ => rfl⟩

/-- **A key at its old version has its old value.** -/
theorem get?_eq (h : t.GrowsTo t') (same : t'.version? key = t.version? key) :
    t'.get? key = t.get? key := by
  cases hs : t.get? key with
  | none => rwa [version?_eq_none_iff.mpr hs, version?_eq_none_iff] at same
  | some stored =>
      obtain ⟨stored', hs', -, eq⟩ := h key stored hs
      rw [version?, version?, hs, hs'] at same
      rw [hs', eq (Option.some.inj same)]

end GrowsTo

/-! ## Numbers of keys

Scopes are added and never removed, so their number tells whether there is a new one. The epoch
counts them; this section counts the keys under a prefix. -/

/-- How many keys start with a prefix. -/
def count (t : Table) (pre : String) : Nat := t.rows.countP fun r => startsWith pre r.1

/-- A put adds a key if there was none. -/
theorem countP_putRow (p : String → Bool) {rows : List Row}
    (sorted : rows.Pairwise fun a b => a.1 < b.1) :
    (putRow key value rows).countP (fun r => p r.1) =
      rows.countP (fun r => p r.1) + if p key && (rows.lookup key).isNone then 1 else 0 := by
  induction rows with
  | nil => by_cases h : p key <;> simp [putRow, h]
  | cons row rows ih =>
      rw [putRow]
      split
      · next lt =>
        rw [lookup_eq_none_of_lt sorted lt, List.countP_cons]
        simp
      · split
        · next eq => simp [List.countP_cons, lookup_cons, eq]
        · next ne =>
          rw [List.countP_cons, ih (List.pairwise_cons.mp sorted).2, List.countP_cons,
            lookup_cons, if_neg ne]
          omega

theorem count_put {pre : String} :
    (t.put key value).count pre =
      t.count pre + if startsWith pre key && (t.get? key).isNone then 1 else 0 :=
  countP_putRow _ t.sorted

theorem count_put_of_not_startsWith {pre : String} (h : startsWith pre key = false) :
    (t.put key value).count pre = t.count pre := by
  rw [count_put, h]
  rfl

/-- What is counted is what a scan finds. -/
theorem count_eq_length_scan (t : Table) (pre : String) : t.count pre = (t.scan pre).length := by
  rw [count, scan_eq_filter, List.countP_eq_length_filter]

/-- No key is there twice. -/
theorem keys_nodup_scan (t : Table) (pre : String) : ((t.scan pre).map Prod.fst).Nodup :=
  List.pairwise_map.mpr ((t.sorted_scan pre).imp fun lt => String.ne_of_lt lt)

theorem mem_keys_scan_iff {pre : String} :
    k ∈ (t.scan pre).map Prod.fst ↔ startsWith pre k ∧ t.get? k ≠ none := by
  rw [List.mem_map, Option.ne_none_iff_exists']
  constructor
  · rintro ⟨r, hr, rfl⟩
    obtain ⟨mem, start⟩ := mem_scan_iff.mp hr
    exact ⟨start, r.2, mem_rows_iff.mp mem⟩
  · rintro ⟨start, stored, hs⟩
    exact ⟨(k, stored), mem_scan_iff.mpr ⟨mem_rows_iff.mpr hs, start⟩, rfl⟩

/-- A table that grows keeps its keys. -/
theorem GrowsTo.keys_subset (h : t.GrowsTo t') (pre : String) :
    (t.scan pre).map Prod.fst ⊆ (t'.scan pre).map Prod.fst := by
  intro k hk
  obtain ⟨start, stored⟩ := mem_keys_scan_iff.mp hk
  obtain ⟨stored, hs⟩ := Option.ne_none_iff_exists'.mp stored
  obtain ⟨stored', hs', -⟩ := h k stored hs
  exact mem_keys_scan_iff.mpr ⟨start, by rw [hs']; exact Option.some_ne_none _⟩

theorem count_eq_length_keys (t : Table) (pre : String) :
    t.count pre = ((t.scan pre).map Prod.fst).length := by
  rw [List.length_map, count_eq_length_scan]

theorem GrowsTo.count_le (h : t.GrowsTo t') (pre : String) : t.count pre ≤ t'.count pre := by
  rw [count_eq_length_keys, count_eq_length_keys]
  exact (keys_nodup_scan t pre).length_le_of_subset (h.keys_subset pre)

/-- **A table that has grown without new keys under a prefix had them all before.** -/
theorem GrowsTo.get?_ne_none (h : t.GrowsTo t') {pre : String} (count : t'.count pre ≤ t.count pre)
    (start : startsWith pre k) (stored : t'.get? k ≠ none) : t.get? k ≠ none := by
  rw [count_eq_length_keys, count_eq_length_keys] at count
  -- the keys from before are among those now, and no fewer
  have perm := ((keys_nodup_scan t pre).subperm (h.keys_subset pre)).perm_of_length_le count
  exact (mem_keys_scan_iff.mp (perm.mem_iff.mpr (mem_keys_scan_iff.mpr ⟨start, stored⟩))).2

/-! ## Transactions that go through

`Commits` leaves out the results of the operations, which only reads have any use for. It splits
along a list of operations, and each kind of operation has its rule. -/

/-- The operations go through, one after another, and lead to the second table. -/
def Commits (t : Table) (ops : List Op) (t' : Table) : Prop :=
  ∃ results, t.applyAll ops = .ok (results, t')

namespace Commits

variable {ops ops' : List Op}

theorem nil_iff : t.Commits [] t' ↔ t' = t := by
  constructor
  · rintro ⟨results, h⟩
    cases h
    rfl
  · rintro rfl
    exact ⟨[], rfl⟩

theorem cons_iff {op : Op} :
    t.Commits (op :: ops) t' ↔ ∃ result mid, t.apply op = .ok (result, mid) ∧ mid.Commits ops t' := by
  unfold Commits
  simp only [applyAll, bind_eq_ok_iff]
  constructor
  · rintro ⟨_, ⟨result, mid⟩, step, ⟨results, _⟩, rest, ⟨⟩⟩
    exact ⟨result, mid, step, results, rest⟩
  · rintro ⟨result, mid, step, results, rest⟩
    exact ⟨_, (result, mid), step, (results, t'), rest, rfl⟩

@[simp] theorem put_iff : t.Commits (.put key value :: ops) t' ↔ (t.put key value).Commits ops t' := by
  rw [cons_iff]
  constructor
  · rintro ⟨_, _, h, rest⟩
    cases h
    exact rest
  · exact fun rest => ⟨_, _, rfl, rest⟩

/-- An expectation lets a transaction through if it is met, and changes nothing. -/
@[simp] theorem expect_iff {version : Option Nat} :
    t.Commits (.expect key version :: ops) t' ↔ t.version? key = version ∧ t.Commits ops t' := by
  rw [cons_iff]
  simp only [apply]
  constructor
  · rintro ⟨_, _, h, rest⟩
    split at h
    · next same => cases h; exact ⟨same, rest⟩
    · cases h
  · rintro ⟨same, rest⟩
    exact ⟨_, _, if_pos same, rest⟩

/-- **The operations of a transaction can be taken in two parts**, with a table in between that
nobody else sees. -/
theorem append_iff : t.Commits (ops ++ ops') t' ↔ ∃ mid, t.Commits ops mid ∧ mid.Commits ops' t' := by
  induction ops generalizing t with
  | nil =>
      constructor
      · exact fun h => ⟨t, nil_iff.mpr rfl, h⟩
      · rintro ⟨mid, h, rest⟩
        rwa [nil_iff.mp h] at rest
  | cons op ops ih =>
      simp only [List.cons_append, cons_iff, ih]
      constructor
      · rintro ⟨result, first, h, mid, h', rest⟩
        exact ⟨mid, ⟨result, first, h, h'⟩, rest⟩
      · rintro ⟨mid, ⟨result, first, h, h'⟩, rest⟩
        exact ⟨result, first, h, mid, h', rest⟩

/-- A transaction makes its table grow. -/
theorem growsTo (h : t.Commits ops t') : t.GrowsTo t' := by
  induction ops generalizing t with
  | nil => rw [nil_iff.mp h]; exact .refl t
  | cons op ops ih =>
      obtain ⟨result, mid, step, rest⟩ := cons_iff.mp h
      refine GrowsTo.trans ?_ (ih rest)
      cases op with
      | get | scan => cases step; exact .refl t
      | put key value => cases step; exact .put t key value
      | expect key version =>
          rw [apply] at step
          split at step
          · cases step; exact .refl t
          · cases step

end Commits

/-- A transaction that is answered has gone through. -/
theorem commits_of_transact {ops : List Op} {results : List OpResult}
    (h : (t.transact ops).1 = .ok results) : t.Commits ops (t.transact ops).2 := by
  rw [transact] at h ⊢
  cases hops : t.applyAll ops with
  | error e => rw [hops] at h; cases h
  | ok a => exact ⟨a.1, hops⟩

theorem transact_of_commits {ops : List Op} (h : t.Commits ops t') :
    ∃ results, t.transact ops = (.ok results, t') := by
  obtain ⟨results, h⟩ := h
  exact ⟨results, by rw [transact, h]⟩

/-- A refused transaction changes nothing. -/
theorem transact_of_error {ops : List Op} {e : BackendError} (h : (t.transact ops).1 = .error e) :
    (t.transact ops).2 = t := by
  rw [transact] at h ⊢
  cases hops : t.applyAll ops with
  | error e => rfl
  | ok a => rw [hops] at h; cases h

end ScopedConfig.Table
