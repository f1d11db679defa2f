import ScopedConfig.Proofs.Keys
import ScopedConfig.Proofs.Scopes

/-!
# Scopes told apart by their identities

What is hashed of a scope determines it (`frames_injective`), so scopes whose identities are equal
are the same unless the hash collides on them. `Separated` collects what is assumed of the scopes in
use: they are well formed, their texts are short enough to be stored, and the hash does not collide
on them. Then identities are as good as the scopes themselves (`Separated.id_eq_iff`).
-/

namespace ScopedConfig

/-! ### Framed texts

Each text is hashed with its length in front. That is what keeps the bytes of different parameter
lists apart: without the lengths, a name and its value could be divided in more than one way. -/

theorem Bytes.ofText_injective {s t : String} (h : Bytes.ofText s = Bytes.ofText t) : s = t := by
  have read := Bytes.text?_ofText s
  rw [h, Bytes.text?_ofText] at read
  exact (Option.some.inj read).symm

/-- Numbers that fit into their width are told apart by their bytes. -/
theorem Bytes.bigEndian_inj {width m n : Nat} (hm : m < 256 ^ width) (hn : n < 256 ^ width)
    (h : bigEndian width m = bigEndian width n) : m = n := by
  have read := toNat_bigEndian width m
  rwa [h, toNat_bigEndian, Nat.mod_eq_of_lt hm, Nat.mod_eq_of_lt hn, eq_comm] at read

namespace Scope

/-- The sizes that stored forms can tell: at most `2 ^ 32` parameters, and texts of at most as many
bytes. -/
structure Small (s : Scope) : Prop where
  length : s.params.length < 2 ^ 32
  name : ∀ p ∈ s.params, p.1.utf8ByteSize < 2 ^ 32
  value : ∀ p ∈ s.params, p.2.utf8ByteSize < 2 ^ 32

/-- Sorting changes neither the number of the parameters nor their texts. -/
theorem Small.canonical {s : Scope} (h : s.Small) : s.canonical.Small := by
  have perm := sortBy_perm pairLe s.params
  exact ⟨perm.length_eq ▸ h.length, fun p hp => h.name p (perm.mem_iff.mp hp),
    fun p hp => h.value p (perm.mem_iff.mp hp)⟩

/-- The sizes that eight bytes can tell, which are those of all that a memory can hold. -/
structure Addressable (s : Scope) : Prop where
  length : s.params.length < 2 ^ 64
  text : ∀ p ∈ s.params, p.1.utf8ByteSize < 2 ^ 64 ∧ p.2.utf8ByteSize < 2 ^ 64

theorem Addressable.canonical {s : Scope} (h : s.Addressable) : s.canonical.Addressable := by
  have perm := sortBy_perm pairLe s.params
  exact ⟨perm.length_eq ▸ h.length, fun p hp => h.text p (perm.mem_iff.mp hp)⟩

theorem Small.addressable {s : Scope} (h : s.Small) : s.Addressable :=
  ⟨Nat.lt_trans h.length (by decide), fun p hp =>
    ⟨Nat.lt_trans (h.name p hp) (by decide), Nat.lt_trans (h.value p hp) (by decide)⟩⟩

/-- A frame says itself where it ends. -/
theorem frame_append_inj {s t : String} {as bs : Bytes} (hs : s.utf8ByteSize < 2 ^ 64)
    (ht : t.utf8ByteSize < 2 ^ 64) (h : frame s ++ as = frame t ++ bs) : s = t ∧ as = bs := by
  simp only [frame, List.append_assoc, Bytes.length_ofText] at h
  obtain ⟨size, h⟩ := List.append_inj h (by simp)
  have size := Bytes.bigEndian_inj (by omega) (by omega) size
  obtain ⟨text, rest⟩ := List.append_inj h (by simpa [Bytes.length_ofText] using size)
  exact ⟨Bytes.ofText_injective text, rest⟩

/-- Of lists of one length, frame by frame. -/
theorem flatMap_frame_injective {ps qs : List (String × String)}
    (length : ps.length = qs.length)
    (hps : ∀ p ∈ ps, p.1.utf8ByteSize < 2 ^ 64 ∧ p.2.utf8ByteSize < 2 ^ 64)
    (hqs : ∀ q ∈ qs, q.1.utf8ByteSize < 2 ^ 64 ∧ q.2.utf8ByteSize < 2 ^ 64)
    (h : ps.flatMap (fun p => frame p.1 ++ frame p.2) =
      qs.flatMap (fun q => frame q.1 ++ frame q.2)) : ps = qs := by
  induction ps generalizing qs with
  | nil => exact (List.length_eq_zero_iff.mp length.symm).symm
  | cons p ps ih =>
      cases qs with
      | nil => cases length
      | cons q qs =>
          simp only [List.flatMap_cons, List.append_assoc] at h
          obtain ⟨hp, hps⟩ := List.forall_mem_cons.mp hps
          obtain ⟨hq, hqs⟩ := List.forall_mem_cons.mp hqs
          obtain ⟨name, h⟩ := frame_append_inj hp.1 hq.1 h
          obtain ⟨value, h⟩ := frame_append_inj hp.2 hq.2 h
          rw [Prod.ext name value, ih (Nat.succ.inj length) hps hqs h]

/-- **Different parameter lists are hashed as different bytes.** -/
theorem frames_injective {s t : Scope} (hs : s.Addressable) (ht : t.Addressable)
    (h : frames s.params = frames t.params) : s = t := by
  rw [frames, frames] at h
  obtain ⟨length, h⟩ := List.append_inj h (by simp)
  -- the number in front says how many frames follow
  have length := Bytes.bigEndian_inj (by have := hs.length; omega) (by have := ht.length; omega) length
  have params := flatMap_frame_injective length hs.text ht.text h
  cases s; cases t
  exact congrArg Scope.mk params

/-! ### Identities

An identity is the hash of the canonical form, so spellings have it in common. The other way round
it is a matter of the hash. That it does not collide is assumed of the scopes in use, of which there
are only so many, and never of all scopes: no function to 32 bytes is injective on them. -/

/-- All spellings of a scope have its identity. -/
theorem id_eq_of_canonical_eq {s t : Scope} (h : s.canonical = t.canonical) : s.id = t.id := by
  simp only [id, h]

theorem id_canonical (s : Scope) : s.canonical.id = s.id :=
  id_eq_of_canonical_eq (WellFormed.canonical_idem s)

/-- What is hashed of scopes tells their canonical forms apart. -/
theorem frames_eq_iff {s t : Scope} (hs : s.Addressable) (ht : t.Addressable) :
    frames s.canonical.params = frames t.canonical.params ↔ s.canonical = t.canonical :=
  ⟨frames_injective hs.canonical ht.canonical, fun h => by rw [h]⟩

/-- So does the hash, as long as it does not collide. -/
theorem id_eq_iff {s t : Scope} (hs : s.Addressable) (ht : t.Addressable)
    (noCollision : Blake3.hash (frames s.canonical.params) = Blake3.hash (frames t.canonical.params) →
      frames s.canonical.params = frames t.canonical.params) :
    s.id = t.id ↔ s.canonical = t.canonical :=
  ⟨fun h => (frames_eq_iff hs ht).mp (noCollision (congrArg ScopeId.bytes h)),
    id_eq_of_canonical_eq⟩

/-- What is assumed of the scopes in use. -/
structure Separated (U : Scope → Prop) : Prop where
  wellFormed : ∀ s, U s → s.WellFormed
  small : ∀ s, U s → s.Small
  /-- The hash does not collide on what is hashed of the scopes. -/
  noCollision : ∀ s t, U s → U t →
    Blake3.hash (frames s.canonical.params) = Blake3.hash (frames t.canonical.params) →
    frames s.canonical.params = frames t.canonical.params

namespace Separated

variable {U : Scope → Prop} {s t : Scope}

/-- **Equal identities are those of the same scope.** -/
theorem id_eq_iff (sep : Separated U) (hs : U s) (ht : U t) :
    s.id = t.id ↔ s.canonical = t.canonical :=
  Scope.id_eq_iff (sep.small s hs).addressable (sep.small t ht).addressable
    (sep.noCollision s t hs ht)

/-- Records are stored scope by scope. -/
theorem recordKey_eq_iff (sep : Separated U) (hs : U s) (ht : U t) :
    Layout.recordKey s.id = Layout.recordKey t.id ↔ s.canonical = t.canonical := by
  rw [Layout.recordKey_inj, sep.id_eq_iff hs ht]

theorem entryKey_eq_iff (sep : Separated U) (hs : U s) (ht : U t) {p q : String} {m n : Revision} :
    Layout.entryKey p s.id m = Layout.entryKey q t.id n ↔
      p = q ∧ s.canonical = t.canonical ∧ m = n := by
  rw [Layout.entryKey_inj, sep.id_eq_iff hs ht]

end Separated

/-- For two scopes, the hash does not collide if their hashes differ. -/
theorem separated_pair {a b : Scope} (ha : a.WellFormed ∧ a.Small) (hb : b.WellFormed ∧ b.Small)
    (apart : Blake3.hash (frames a.canonical.params) ≠ Blake3.hash (frames b.canonical.params)) :
    Separated (fun s => s = a ∨ s = b) where
  wellFormed s hs := by
    rcases hs with rfl | rfl
    · exact ha.1
    · exact hb.1
  small s hs := by
    rcases hs with rfl | rfl
    · exact ha.2
    · exact hb.2
  noCollision s t hs ht h := by
    rcases hs with rfl | rfl <;> rcases ht with rfl | rfl
    · rfl
    · exact absurd h apart
    · exact absurd h.symm apart
    · rfl

/-- Two scopes, the global one and one inside of it. -/
def Sample (s : Scope) : Prop := s = global ∨ s = ⟨[("env", "prod")]⟩

instance : DecidablePred Sample := fun s =>
  inferInstanceAs (Decidable (s = global ∨ s = ⟨[("env", "prod")]⟩))

theorem separated_sample : Separated Sample := by
  apply separated_pair
  · exact ⟨⟨by simp [global], by simp [global]⟩, by decide, by simp [global], by simp [global]⟩
  · exact ⟨⟨by simp, by simp⟩, by decide, by simp; decide, by simp; decide⟩
  · decide +kernel

end Scope

end ScopedConfig
