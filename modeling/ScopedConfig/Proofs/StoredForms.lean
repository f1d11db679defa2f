import Mathlib.Data.List.Induction
import ScopedConfig.Proofs.RoundTrip

/-!
# Stored forms

Whatever the store writes of scopes and values is read back as it was (`stored_forms_read_back`), and
it is written no longer than need be: a byte string that reads as a head is never shorter than the
head as it is written (`Head.length_write_le`). The reader takes numbers and lengths in any width that
holds them, so the bound is shown width by width.
-/

namespace ScopedConfig

theorem Bytes.toNat_lt (bytes : Bytes) : toNat bytes < 256 ^ bytes.length := by
  induction bytes using List.reverseRecOn with
  | nil => decide
  | append_singleton bytes b ih =>
      have := b.toNat_lt
      rw [toNat_append_singleton, List.length_append, List.length_singleton, Nat.pow_succ]
      omega

namespace MessagePack.Head

/-! ## Shortest forms

A head is a mark with up to eight bytes behind it. What the writer chooses is compared with what the
reader takes, mark by mark: a number read in some width is one that fits into it, and so is written
in that width or in a shorter one. -/

/-- The widths in bytes that a number of a head can have. -/
def widths : List Nat := [1, 2, 4, 8]

theorem mem_widths_iff {width : Nat} :
    width ∈ widths ↔ width = 1 ∨ width = 2 ∨ width = 4 ∨ width = 8 := by
  simp [widths]

@[simp] theorem length_wide (mark : UInt8) (width n : Nat) :
    (wide mark width n).length = width + 1 := by
  simp [wide]

/-- A number that fits into a width is written in no more. -/
theorem length_writeNat_le {width n : Nat} (hw : width ∈ widths) (h : n < 256 ^ width) :
    (writeNat n).length ≤ width + 1 := by
  rw [writeNat]
  rcases mem_widths_iff.mp hw with rfl | rfl | rfl | rfl <;> split_ifs <;>
    simp only [length_wide, List.length_singleton] <;> omega

/-- And a negative one likewise. -/
theorem length_writeNegative_le {width n : Nat} (hw : width ∈ widths)
    (h : n < 2 ^ (8 * width - 1)) : (writeNegative n).length ≤ width + 1 := by
  rw [writeNegative]
  rcases mem_widths_iff.mp hw with rfl | rfl | rfl | rfl <;> split_ifs <;>
    simp only [length_wide, List.length_singleton] <;> omega

/-- A two's complement stands for a number that needs no more than its width. -/
theorem length_signed_le {width n : Nat} (hw : width ∈ widths) (h : n < 256 ^ width) :
    (signed width n).write.length ≤ width + 1 := by
  by_cases low : n < 2 ^ (8 * width - 1)
  · rw [signed, if_pos low]
    exact length_writeNat_le hw h
  · have positive : 0 < width := by
      have := mem_widths_iff.mp hw
      omega
    have double : 2 ^ (8 * width) = 2 * 2 ^ (8 * width - 1) := by
      rw [← Nat.pow_succ']
      congr 1
      omega
    rw [show (256 : Nat) = 2 ^ 8 from rfl, ← Nat.pow_mul] at h
    -- the upper half holds the negative numbers, counted back from its end
    obtain ⟨m, rfl⟩ : ∃ m, n = 2 ^ (8 * width) - 1 - m := ⟨2 ^ (8 * width) - 1 - n, by omega⟩
    have small : m < 2 ^ (8 * width - 1) := by omega
    rw [signed_complement positive small]
    exact length_writeNegative_le hw small

/-- With marks in the order of their widths, the one taken is no wider than any that suffices. -/
theorem find?_mark_le {n : Nat} {marks : List (Nat × Nat × UInt8)} {m : Nat × Nat × UInt8}
    (ordered : marks.Pairwise fun a b => a.2.1 ≤ b.2.1) (hm : m ∈ marks) (h : n < m.1) :
    ∃ a, marks.find? (fun m => n < m.1) = some a ∧ a.2.1 ≤ m.2.1 := by
  induction marks with
  | nil => cases hm
  | cons a marks ih =>
      obtain ⟨least, ordered⟩ := List.pairwise_cons.mp ordered
      by_cases enough : n < a.1
      · refine ⟨a, List.find?_cons_of_pos (by simpa using enough), ?_⟩
        rcases List.mem_cons.mp hm with rfl | hm
        · exact Nat.le_refl _
        · exact least m hm
      · rw [List.find?_cons_of_neg (by simpa using enough)]
        rcases List.mem_cons.mp hm with rfl | hm
        · exact absurd h enough
        · exact ih ordered hm

theorem length_writeLength_le {base short n : Nat} {marks : List (Nat × Nat × UInt8)}
    {m : Nat × Nat × UInt8} (ordered : marks.Pairwise fun a b => a.2.1 ≤ b.2.1) (hm : m ∈ marks)
    (h : n < m.1) : (writeLength base short marks n).length ≤ m.2.1 + 1 := by
  rw [writeLength]
  split
  · simp
  · obtain ⟨a, find, le⟩ := find?_mark_le ordered hm h
    rw [find, length_wide]
    exact Nat.add_le_add_right le 1

section Read

variable {bytes rest : Bytes} {head : Head}

/-- A number behind a mark, where the head that is made of it needs no more than its width. -/
theorem length_write_numbered_le {width : Nat} {make : Nat → Head}
    (narrow : ∀ n < 256 ^ width, (make n).write.length ≤ width + 1)
    (h : numbered width make bytes = some (head, rest)) :
    head.write.length + rest.length ≤ bytes.length + 1 := by
  rw [numbered, split?] at h
  split at h
  · next enough =>
    cases h
    have number : Bytes.toNat (bytes.take width) < 256 ^ width := by
      have := Bytes.toNat_lt (bytes.take width)
      rwa [List.length_take_of_le enough] at this
    have := narrow _ number
    rw [List.length_drop]
    omega
  · cases h

/-- A length behind any of its marks. -/
theorem length_write_marked_le {base short : Nat} {marks : List (Nat × Nat × UInt8)}
    {make : Nat → Head} (written : ∀ n, (make n).write = writeLength base short marks n)
    (ordered : marks.Pairwise fun a b => a.2.1 ≤ b.2.1) (full : ∀ m ∈ marks, m.1 = 256 ^ m.2.1) :
    ∀ m ∈ marks, numbered m.2.1 make bytes = some (head, rest) →
      head.write.length + rest.length ≤ bytes.length + 1 := by
  intro m hm
  refine length_write_numbered_le fun n hn => ?_
  rw [written]
  exact length_writeLength_le ordered hm (full m hm ▸ hn)

/-- A head without anything behind its mark. -/
theorem length_write_byte_le {d : Head} (narrow : d.write.length = 1)
    (h : some (d, bytes) = some (head, rest)) :
    head.write.length + rest.length ≤ bytes.length + 1 := by
  cases h
  omega

theorem length_write_natural_le {width : Nat} (hw : width ∈ widths)
    (h : numbered width (fun n => .integer n) bytes = some (head, rest)) :
    head.write.length + rest.length ≤ bytes.length + 1 := by
  refine length_write_numbered_le (fun n hn => ?_) h
  exact length_writeNat_le hw hn

theorem length_write_signed_le {width : Nat} (hw : width ∈ widths)
    (h : numbered width (signed width) bytes = some (head, rest)) :
    head.write.length + rest.length ≤ bytes.length + 1 :=
  length_write_numbered_le (fun _ hn => length_signed_le hw hn) h

/-- **Heads are written in their shortest form.** -/
theorem length_write_le (h : read bytes = some (head, rest)) :
    head.write.length + rest.length ≤ bytes.length := by
  cases bytes with
  | nil => cases h
  | cons mark bytes =>
      rw [List.length_cons]
      have text : ∀ m ∈ textMarks, numbered m.2.1 .text bytes = some (head, rest) → _ :=
        length_write_marked_le (fun _ => rfl) (by decide) (by decide)
      have binary : ∀ m ∈ binaryMarks, numbered m.2.1 .binary bytes = some (head, rest) → _ :=
        length_write_marked_le (fun _ => rfl) (by decide) (by decide)
      have array : ∀ m ∈ arrayMarks, numbered m.2.1 .array bytes = some (head, rest) → _ :=
        length_write_marked_le (fun _ => rfl) (by decide) (by decide)
      have map : ∀ m ∈ mapMarks, numbered m.2.1 .map bytes = some (head, rest) → _ :=
        length_write_marked_le (fun _ => rfl) (by decide) (by decide)
      simp only [read] at h
      split_ifs at h with natural shortMap shortArray shortText negative
      · refine length_write_byte_le ?_ h
        show (writeNat mark.toNat).length = 1
        rw [writeNat, if_pos natural, List.length_singleton]
      · refine length_write_byte_le ?_ h
        rw [write, writeLength, if_pos (by omega), List.length_singleton]
      · refine length_write_byte_le ?_ h
        rw [write, writeLength, if_pos (by omega), List.length_singleton]
      · refine length_write_byte_le ?_ h
        rw [write, writeLength, if_pos (by omega), List.length_singleton]
      · refine length_write_byte_le ?_ h
        have lt := mark.toNat_lt
        have complement : (mark.toNat : Int) - 0x100 = .negSucc (0xff - mark.toNat) := by omega
        rw [complement, write, writeNegative, if_pos (by omega), List.length_singleton]
      · -- in the order of the marks: constants, byte strings, floats, integers, texts, arrays, maps
        split at h
        · exact length_write_byte_le rfl h
        · exact length_write_byte_le rfl h
        · exact length_write_byte_le rfl h
        · exact binary _ (.head _) h
        · exact binary _ (.tail _ (.head _)) h
        · exact binary _ (.tail _ (.tail _ (.head _))) h
        · exact length_write_numbered_le (fun _ _ => by simp [write]) h
        · exact length_write_numbered_le (fun _ _ => by simp [write]) h
        · exact length_write_natural_le (by decide) h
        · exact length_write_natural_le (by decide) h
        · exact length_write_natural_le (by decide) h
        · exact length_write_natural_le (by decide) h
        · exact length_write_signed_le (by decide) h
        · exact length_write_signed_le (by decide) h
        · exact length_write_signed_le (by decide) h
        · exact length_write_signed_le (by decide) h
        · exact text _ (.head _) h
        · exact text _ (.tail _ (.head _)) h
        · exact text _ (.tail _ (.tail _ (.head _))) h
        · exact array _ (.head _) h
        · exact array _ (.tail _ (.head _)) h
        · exact map _ (.head _) h
        · exact map _ (.tail _ (.head _)) h
        · cases h

end Read

end MessagePack.Head

open MessagePack

/-! ## Records and entries

Their forms are heads and texts one after another, and are read back by `ScopeRecord.unpack?_pack` and
`Entry.unpack?_pack`. The theorem puts these beside the bound on heads. -/

/-- **Stored forms are read back**, and their heads are the shortest there are. A record comes back
with its parameters in the order in which they were given and with both its pointers, an entry with
its revision, its value and the identity of its batch. Left out are sizes that a head cannot tell, and
URIs that are not what their own normal form names. -/
theorem stored_forms_read_back :
    (∀ r : ScopeRecord, r.scope.Small → ScopeRecord.unpack? r.pack = some r) ∧
    (∀ e : Entry, e.value.Fits → Entry.unpack? e.pack = some e) ∧
    ∀ bytes head rest, Head.read bytes = some (head, rest) →
      head.write.length + rest.length ≤ bytes.length :=
  ⟨fun _ => ScopeRecord.unpack?_pack, fun _ => Entry.unpack?_pack, fun _ _ _ => Head.length_write_le⟩

/-- A record at the last revision that its pointers can name. -/
def lastRecord : ScopeRecord :=
  ⟨⟨[("region", "eu"), ("env", "")]⟩, 0xffffffffffffffff, some 0x80⟩

/-- An entry of a signalling NaN. -/
def nanEntry : Entry := ⟨0x100, .float 0xfff0000000000001, .stamped 1 2⟩

/-- An entry of a URI, with all its parts. -/
def linkEntry : Entry :=
  ⟨1, .uri ⟨"https".toList, some ⟨"me".toList, [], some (.domain "example.com".toList), some 8443⟩,
    "/a".toList, some "b".toList, some "c".toList⟩, .stamped 1 2⟩

theorem extremes_read_back :
    ScopeRecord.unpack? lastRecord.pack = some lastRecord ∧
    Entry.unpack? nanEntry.pack = some nanEntry ∧ Entry.unpack? linkEntry.pack = some linkEntry ∧
    Head.read [0xcd, 0, 7] = some (.integer 7, []) ∧ (Head.integer 7).write.length ≤ 3 := by
  obtain ⟨records, entries, shortest⟩ := stored_forms_read_back
  have wide : Head.read [0xcd, 0, 7] = some (.integer 7, []) := by decide
  refine ⟨records _ ⟨by decide, ?_, ?_⟩, entries _ trivial, entries _ ⟨?_, ?_⟩, wide,
    shortest _ _ _ wide⟩
  · decide
  · decide
  · decide +kernel
  · decide +kernel

end ScopedConfig
