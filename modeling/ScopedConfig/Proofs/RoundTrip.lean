import ScopedConfig.MessagePack.Forms
import ScopedConfig.Proofs.Identities

/-!
# Packed forms read back

A head within the range of its format is read back as itself (`Head.read_write`), and so is whatever
is built from heads: records of small scopes (`ScopeRecord.unpack?_pack`) and entries of values that
fit (`Entry.unpack?_pack`). The readers are proved on a packed form with anything behind it, because
that is where the parts of a larger form stand.
-/

namespace ScopedConfig

namespace MessagePack

namespace Head

/-! ## Heads

A head takes the shortest form that holds its number or length. So reading one back has a case for
each form: a short one within the first byte, and the wide ones with their numbers behind it, as
`numbered` reads them.

Single floats are left out of the range: they are read, but never written. -/

/-- The range of a head: numbers within 64 bits and lengths within 32. -/
def InRange : Head → Prop
  | .nil | .boolean _ | .float64 _ => True
  | .integer i => -2 ^ 63 ≤ i ∧ i < 2 ^ 64
  | .float32 _ => False
  | .text n | .binary n | .array n | .map n => n < 2 ^ 32

/-- So many bytes are split off whatever stands behind them. -/
theorem split?_append {bytes rest : Bytes} {n : Nat} (h : bytes.length = n) :
    split? n (bytes ++ rest) = some (bytes, rest) := by
  subst h
  simp [split?]

/-- A number of some width is read back if it fits into that many bytes. -/
theorem numbered_bigEndian (width : Nat) {n : Nat} (make : Nat → Head) (rest : Bytes)
    (h : n < 256 ^ width) :
    numbered width make (Bytes.bigEndian width n ++ rest) = some (make n, rest) := by
  rw [numbered, split?_append (Bytes.bigEndian_length width n)]
  simp [Bytes.toNat_bigEndian, Nat.mod_eq_of_lt h]

/-- Lengths are read back if both their short form and each of their long forms is. -/
theorem read_writeLength {make : Nat → Head} {base short : Nat} {marks : List (Nat × Nat × UInt8)}
    {n : Nat} (rest : Bytes)
    (small : n < short → read (UInt8.ofNat (base + n) :: rest) = some (make n, rest))
    (large : ∀ m ∈ marks, n < m.1 → read (wide m.2.2 m.2.1 n ++ rest) = some (make n, rest))
    (known : ∃ m ∈ marks, n < m.1) :
    read (writeLength base short marks n ++ rest) = some (make n, rest) := by
  rw [writeLength]
  split
  · next h => exact small h
  · cases find : marks.find? fun m => n < m.1 with
    | none =>
        obtain ⟨m, hm, lt⟩ := known
        exact absurd lt (by simpa using List.find?_eq_none.mp find m hm)
    | some m =>
        have lt : n < m.1 := by simpa using List.find?_some find
        exact large m (List.mem_of_find?_eq_some find) lt

theorem toNat_ofNat_lt {n : Nat} (h : n < 256) : (UInt8.ofNat n).toNat = n := by
  simpa using h

/-- Texts have four forms, the short one among them. -/
theorem read_text {n : Nat} (h : n < 2 ^ 32) (rest : Bytes) :
    read ((Head.text n).write ++ rest) = some (.text n, rest) := by
  refine read_writeLength rest (fun small => ?_) ?_ ⟨(0x100000000, 4, 0xdb), by simp [textMarks], h⟩
  · -- the first byte is in the range of short texts, and no earlier range holds it
    simp only [read, toNat_ofNat_lt (show 0xa0 + n < 256 by omega)]
    rw [if_neg (by omega), if_neg (by omega), if_neg (by omega), if_pos (by omega),
      Nat.add_sub_cancel_left]
  · simp only [textMarks, List.forall_mem_cons]
    exact ⟨numbered_bigEndian 1 .text rest, numbered_bigEndian 2 .text rest,
      numbered_bigEndian 4 .text rest, by simp⟩

/-- Binary data has no short form. -/
theorem read_binary {n : Nat} (h : n < 2 ^ 32) (rest : Bytes) :
    read ((Head.binary n).write ++ rest) = some (.binary n, rest) := by
  refine read_writeLength rest (fun small => absurd small (Nat.not_lt_zero n)) ?_
    ⟨(0x100000000, 4, 0xc6), by simp [binaryMarks], h⟩
  simp only [binaryMarks, List.forall_mem_cons]
  exact ⟨numbered_bigEndian 1 .binary rest, numbered_bigEndian 2 .binary rest,
    numbered_bigEndian 4 .binary rest, by simp⟩

/-- Arrays, like maps, have no wide form with a length of one byte. -/
theorem read_array {n : Nat} (h : n < 2 ^ 32) (rest : Bytes) :
    read ((Head.array n).write ++ rest) = some (.array n, rest) := by
  refine read_writeLength rest (fun small => ?_) ?_ ⟨(0x100000000, 4, 0xdd), by simp [arrayMarks], h⟩
  · simp only [read, toNat_ofNat_lt (show 0x90 + n < 256 by omega)]
    rw [if_neg (by omega), if_neg (by omega), if_pos (by omega), Nat.add_sub_cancel_left]
  · simp only [arrayMarks, List.forall_mem_cons]
    exact ⟨numbered_bigEndian 2 .array rest, numbered_bigEndian 4 .array rest, by simp⟩

theorem read_map {n : Nat} (h : n < 2 ^ 32) (rest : Bytes) :
    read ((Head.map n).write ++ rest) = some (.map n, rest) := by
  refine read_writeLength rest (fun small => ?_) ?_ ⟨(0x100000000, 4, 0xdf), by simp [mapMarks], h⟩
  · simp only [read, toNat_ofNat_lt (show 0x80 + n < 256 by omega)]
    rw [if_neg (by omega), if_pos (by omega), Nat.add_sub_cancel_left]
  · simp only [mapMarks, List.forall_mem_cons]
    exact ⟨numbered_bigEndian 2 .map rest, numbered_bigEndian 4 .map rest, by simp⟩

/-- Natural numbers go by the first width that holds them. -/
theorem read_writeNat {n : Nat} (h : n < 2 ^ 64) (rest : Bytes) :
    read (writeNat n ++ rest) = some (.integer n, rest) := by
  rw [writeNat]
  split
  · next small =>
    simp only [List.singleton_append, read, toNat_ofNat_lt (show n < 256 by omega)]
    rw [if_pos small]
  · split
    · next small => exact numbered_bigEndian 1 (fun n => .integer n) rest small
    · split
      · next small => exact numbered_bigEndian 2 (fun n => .integer n) rest small
      · split
        · next small => exact numbered_bigEndian 4 (fun n => .integer n) rest small
        · exact numbered_bigEndian 8 (fun n => .integer n) rest h

/-- The two's complement of `-(n + 1)` stands for that number. -/
theorem signed_complement {w n : Nat} (hw : 0 < w) (h : n < 2 ^ (8 * w - 1)) :
    signed w (2 ^ (8 * w) - 1 - n) = .integer (.negSucc n) := by
  -- the number lies in the upper half of its width
  have double : 2 ^ (8 * w) = 2 * 2 ^ (8 * w - 1) := by
    rw [← Nat.pow_succ']
    congr 1
    omega
  rw [signed, if_neg (by omega), Int.negSucc_eq]
  congr 1
  have cast : ((2 ^ (8 * w) : Nat) : Int) = 2 ^ (8 * w) := by norm_cast
  rw [← cast]
  omega

/-- Negative numbers go by the first width that holds them in two's complement, and small ones are
the first byte itself. -/
theorem read_writeNegative {n : Nat} (h : n < 2 ^ 63) (rest : Bytes) :
    read (writeNegative n ++ rest) = some (.integer (.negSucc n), rest) := by
  rw [writeNegative]
  split
  · next small =>
    simp only [List.singleton_append, read, toNat_ofNat_lt (show 0xff - n < 256 by omega)]
    rw [if_neg (by omega), if_neg (by omega), if_neg (by omega), if_neg (by omega),
      if_pos (by omega), Int.negSucc_eq]
    congr 3
    omega
  · split
    · next small =>
      rw [← signed_complement (w := 1) (by decide) small]
      exact numbered_bigEndian 1 (signed 1) rest (by omega)
    · split
      · next small =>
        rw [← signed_complement (w := 2) (by decide) small]
        exact numbered_bigEndian 2 (signed 2) rest (by omega)
      · split
        · next small =>
          rw [← signed_complement (w := 4) (by decide) small]
          exact numbered_bigEndian 4 (signed 4) rest (by omega)
        · rw [← signed_complement (w := 8) (by decide) h]
          exact numbered_bigEndian 8 (signed 8) rest (by omega)

/-- **Heads read back.** -/
theorem read_write {head : Head} (h : head.InRange) (rest : Bytes) :
    read (head.write ++ rest) = some (head, rest) := by
  cases head with
  | nil => rfl
  | boolean b => cases b <;> rfl
  | float32 bits => cases h
  | float64 bits =>
      have read := numbered_bigEndian 8 (fun bits => .float64 (UInt64.ofNat bits)) rest
        (show bits.toNat < 256 ^ 8 from bits.toNat_lt)
      rwa [UInt64.ofNat_toNat] at read
  | integer i =>
      cases i with
      | ofNat n => exact read_writeNat (by have := h.2; simp at this; omega) rest
      | negSucc n => exact read_writeNegative (by have := h.1; omega) rest
  | text n => exact read_text h rest
  | binary n => exact read_binary h rest
  | array n => exact read_array h rest
  | map n => exact read_map h rest

end Head

/-! ## Readers

A reader of a larger form is put together from readers of its parts, and so is the proof that it
reads its form back. That needs the parts to be read back with the rest of the form behind them. -/

/-- The reader takes exactly these bytes, whatever follows them, as the given thing. -/
def Yields {α : Type} (r : Reader α) (bytes : Bytes) (a : α) : Prop :=
  ∀ rest, r (bytes ++ rest) = some (a, rest)

namespace Yields

open Reader

variable {α β : Type} {r : Reader α} {x y : Bytes} {a : α} {b : β} {d : Head}

theorem done (a : α) : Yields (done a) [] a := fun _ => rfl

/-- **One form after another.** The second may depend on what the first was read as. -/
theorem next {k : α → Reader β} (h : Yields r x a) (h' : Yields (k a) y b) :
    Yields (next r k) (x ++ y) b := by
  intro rest
  rw [List.append_assoc, Reader.next, h, Option.bind_some]
  exact h' rest

/-- A reader that takes nothing more. -/
theorem next_nil {k : α → Reader β} (h : Yields r x a) (h' : Yields (k a) [] b) :
    Yields (Reader.next r k) x b := by
  have := h.next h'
  rwa [List.append_nil] at this

theorem next_done {f : α → β} (h : Yields r x a) :
    Yields (Reader.next r fun a => Reader.done (f a)) x (f a) :=
  h.next_nil (done (f a))

/-- What has been read may be refused, but is not. -/
theorem next_accept {f : α → Option β} (h : Yields r x a) (hf : f a = some b) :
    Yields (Reader.next r fun a => accept (f a)) x b :=
  h.next_nil (by rw [hf]; exact done b)

/-- Heads in their range are read back, so everything that starts with one can be built on them. -/
theorem head (h : d.InRange) : Yields Head.read d.write d :=
  fun rest => Head.read_write h rest

theorem raw (bytes : Bytes) : Yields (raw bytes.length) bytes bytes :=
  fun _ => Head.split?_append rfl

/-- With nothing behind the form, it is the whole of the bytes. -/
theorem eq (h : Yields r x a) : (r x).map Prod.fst = some a := by
  have := h []
  rw [List.append_nil] at this
  rw [this]
  rfl

/-! ### Simple items

Texts and binary data are a head with a length and the bytes themselves; a number, a float or a
boolean is a head alone. -/

theorem plainText {s : String} (h : s.utf8ByteSize < 2 ^ 32) :
    Yields Reader.plainText (packText s) s :=
  next (head (d := .text (Bytes.ofText s).length) h)
    (next_accept (raw (Bytes.ofText s)) (Bytes.text?_ofText s))

theorem text {s : String} (h : s.utf8ByteSize < 2 ^ 32) : Yields Reader.text (packText s) s :=
  next (head (d := .text (Bytes.ofText s).length) h)
    (next_accept (raw (Bytes.ofText s)) (Bytes.text?_ofText s))

theorem binary (h : x.length < 2 ^ 32) : Yields Reader.binary (packBinary x) x :=
  next (head (d := .binary x.length) h) (raw x)

/-- A head that stands for a value by itself. -/
theorem item {k : Head → Reader α} (h : d.InRange) (hk : Yields (k d) [] a) :
    Yields (Reader.next Head.read k) d.write a :=
  (head h).next_nil hk

/-- All of the 64 bits are in the range of an integer head. -/
theorem unsigned (n : UInt64) : Yields Reader.unsigned (Head.integer n.toNat).write n := by
  have lt := n.toNat_lt
  refine item ⟨by omega, by omega⟩ ?_
  simp only [Int.toNat_natCast, UInt64.ofNat_toNat]
  rw [if_pos (by omega)]
  exact done n

/-- A signed number is packed by its value, not by its bits, so it is small if it is close to zero.
-/
theorem signed (i : Int64) : Yields Reader.signed (Head.integer i.toInt).write i := by
  have low := i.le_toInt
  have high := i.toInt_lt
  refine item ⟨low, by omega⟩ ?_
  simp only [Int64.ofInt_toInt]
  rw [if_pos ⟨low, high⟩]
  exact done i

theorem float (bits : Binary64) : Yields Reader.float (Head.float64 bits).write bits :=
  item trivial (done bits)

theorem boolean (b : Bool) : Yields Reader.boolean (Head.boolean b).write b :=
  item trivial (done b)

/-- Nil stands for a missing item. -/
theorem orNil_none : Yields (orNil r) Head.nil.write none := fun _ => rfl

/-- An item whose head is not nil. -/
theorem orNil_some (h : Yields r (d.write ++ x) a) (not_nil : d ≠ .nil) (hd : d.InRange) :
    Yields (orNil r) (d.write ++ x) (some a) := by
  intro rest
  have read := Head.read_write hd (x ++ rest)
  rw [← List.append_assoc] at read
  simp only [orNil, read]
  have item := h.next_done (f := some) rest
  cases d with
  | nil => exact absurd rfl not_nil
  | _ => exact item

/-! ### Arrays

A tuple is an array whose length the reader knows; the items of other arrays are counted by their
heads. -/

theorem tuple {n : Nat} (h : n < 2 ^ 32) : Yields (Reader.tuple n) (Head.array n).write () := by
  refine item h ?_
  simp only [if_true]
  exact done ()

/-- By induction on the items, each of which is read with the later ones behind it. -/
theorem items {pack : α → Bytes} {as : List α} (h : ∀ a ∈ as, Yields r (pack a) a) :
    Yields (Reader.items r as.length) (as.flatMap pack) as := by
  induction as with
  | nil => exact done []
  | cons a as ih =>
      obtain ⟨ha, has⟩ := List.forall_mem_cons.mp h
      exact ha.next (next_done (ih has))

theorem array {pack : α → Bytes} {as : List α} (length : as.length < 2 ^ 32)
    (h : ∀ a ∈ as, Yields r (pack a) a) :
    Yields (Reader.array r) ((Head.array as.length).write ++ as.flatMap pack) as :=
  next (head (d := .array as.length) length) (items h)

/-! ### Alternatives

An alternative without content is its name alone, any other a map of one entry from its name. The
reader tells them apart by the head and passes on which of the two it was. -/

theorem bare {name : String} {k : String × Bool → Reader α} (h : name.utf8ByteSize < 2 ^ 32)
    (hk : Yields (k (name, false)) [] a) :
    Yields (Reader.next Reader.alternative k) (packText name) a := by
  refine next_nil (fun rest => ?_) hk
  have read := Head.read_text (n := (Bytes.ofText name).length) h (Bytes.ofText name ++ rest)
  rw [← List.append_assoc, ← packText] at read
  simp only [Reader.alternative, read]
  exact next_done (text h) rest

theorem alternative {name : String} {k : String × Bool → Reader α}
    (h : name.utf8ByteSize < 2 ^ 32) (hk : Yields (k (name, true)) x a) :
    Yields (Reader.next Reader.alternative k) (packAlternative name x) a := by
  refine next (fun rest => ?_) hk
  have read := Head.read_map (n := 1) (by decide) (packText name ++ rest)
  rw [← List.append_assoc] at read
  simp only [Reader.alternative, read, if_true]
  exact next_done (text h) rest

end Yields

end MessagePack

open MessagePack

/-! ## Values

The kinds of values are alternatives. A URI is stored as its text and parsed again, so it has to be
the one that its text parses to. -/

namespace Value

/-- What the packed form can hold: short texts, and URIs that their own normal forms name. -/
def Fits : Value → Prop
  | .text s => s.utf8ByteSize < 2 ^ 32
  | .uri u => u.text.utf8ByteSize < 2 ^ 32 ∧ Uri.parse u.text = .ok u
  | _ => True

instance : DecidablePred Fits
  | .text s => inferInstanceAs (Decidable (s.utf8ByteSize < 2 ^ 32))
  | .uri u => inferInstanceAs (Decidable (u.text.utf8ByteSize < 2 ^ 32 ∧ Uri.parse u.text = .ok u))
  | .unset | .null | .boolean _ | .integer _ | .float _ => isTrue trivial

/-- **Values that fit are read back.** -/
theorem yields_pack {v : Value} (h : v.Fits) : Yields reader v.pack v := by
  cases v with
  | unset => exact .bare (by decide) (.done _)
  | null => exact .bare (by decide) (.done _)
  | text s => exact .alternative (by decide) (.next_done (.text h))
  | integer i => exact .alternative (by decide) (.next_done (.signed i))
  | float bits => exact .alternative (by decide) (.next_done (.float bits))
  | boolean b => exact .alternative (by decide) (.next_done (.boolean b))
  | uri u =>
      refine .alternative (by decide) ?_
      rw [content]
      refine (Yields.plainText h.1).next_nil ?_
      rw [h.2]
      exact .done _

end Value

/-! ## Records and entries

Records, scopes, pairs and entries are tuples of their fields, in order. -/

namespace Scope

theorem yields_packPair {p : String × String} (name : p.1.utf8ByteSize < 2 ^ 32)
    (value : p.2.utf8ByteSize < 2 ^ 32) : Yields pairReader (packPair p) p := by
  rw [packPair, List.append_assoc]
  exact (Yields.tuple (by decide)).next ((Yields.text name).next (.next_done (.text value)))

theorem Small.yields_pack {s : Scope} (h : s.Small) : Yields reader s.pack s := by
  rw [pack, List.append_assoc]
  exact (Yields.tuple (by decide)).next (.next_done
    (.array h.length fun p hp => yields_packPair (h.name p hp) (h.value p hp)))

end Scope

theorem BatchId.yields_pack (i : BatchId) : Yields reader i.pack i :=
  .next_accept (.binary (by rw [i.length_eq]; decide)) (dif_pos i.length_eq)

/-- **A record of a small scope is read back as it was.** -/
theorem ScopeRecord.unpack?_pack {r : ScopeRecord} (h : r.scope.Small) :
    unpack? r.pack = some r := by
  have whole : Yields reader r.pack r := by
    rw [pack, List.append_assoc, List.append_assoc]
    refine (Yields.tuple (by decide)).next (h.yields_pack.next
      ((Yields.unsigned r.working).next (.next_done ?_)))
    cases r.active with
    | none => exact .orNil_none
    | some n =>
        -- a revision is an integer, so its head is not nil
        have item := Yields.unsigned n
        rw [← List.append_nil (Head.write _)] at item
        have some := item.orNil_some (by simp) ⟨by omega, by have := n.toNat_lt; omega⟩
        rwa [List.append_nil] at some
  exact whole.eq

/-- **An entry of a value that fits is read back as it was.** -/
theorem Entry.unpack?_pack {e : Entry} (h : e.value.Fits) : unpack? e.pack = some e := by
  have whole : Yields reader e.pack e := by
    rw [pack, List.append_assoc, List.append_assoc]
    exact (Yields.tuple (by decide)).next ((Yields.unsigned e.revision).next
      ((Value.yields_pack h).next (.next_done e.batch.yields_pack)))
  exact whole.eq

end ScopedConfig
