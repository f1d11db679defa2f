import ScopedConfig.Powers

/-!
# The BLAKE3 hash

The unkeyed 256-bit hash of a byte string. A message is cut into chunks of 1024 bytes, a chunk into
blocks of 64; chunks are the leaves of a binary tree whose left subtree is always full, and the
root's last compression is marked as such. `hash` returns the 32 bytes (`hash_length`).
-/

namespace ScopedConfig.Blake3

/-! ### Words -/

/-- Rotation to the right by `n` bits, `0 < n < 32`. -/
def rotate (x n : UInt32) : UInt32 := (x >>> n) ||| (x <<< (32 - n))

/-- The four bytes of a word, least significant first. -/
def wordBytes (x : UInt32) : List UInt8 :=
  [x.toUInt8, (x >>> 8).toUInt8, (x >>> 16).toUInt8, (x >>> 24).toUInt8]

/-- The `i`-th word of a byte string, least significant byte first, with zeros after its end. -/
def wordAt (bytes : List UInt8) (i : Nat) : UInt32 :=
  (bytes.getD (4 * i) 0).toUInt32 ||| ((bytes.getD (4 * i + 1) 0).toUInt32 <<< 8) |||
    ((bytes.getD (4 * i + 2) 0).toUInt32 <<< 16) ||| ((bytes.getD (4 * i + 3) 0).toUInt32 <<< 24)

/-- Four words: one row of the compression state. -/
structure Row where
  a : UInt32
  b : UInt32
  c : UInt32
  d : UInt32

namespace Row

/-- The row rotated to the left by one place. -/
def turn (r : Row) : Row := ⟨r.b, r.c, r.d, r.a⟩

def xor (r s : Row) : Row := ⟨r.a ^^^ s.a, r.b ^^^ s.b, r.c ^^^ s.c, r.d ^^^ s.d⟩

def bytes (r : Row) : List UInt8 :=
  wordBytes r.a ++ wordBytes r.b ++ wordBytes r.c ++ wordBytes r.d

end Row

/-- Eight words: a chaining value. -/
structure Chain where
  low : Row
  high : Row

/-- The chaining value that every chunk and parent starts from. -/
def initial : Chain :=
  ⟨⟨0x6A09E667, 0xBB67AE85, 0x3C6EF372, 0xA54FF53A⟩,
   ⟨0x510E527F, 0x9B05688C, 0x1F83D9AB, 0x5BE0CD19⟩⟩

/-- Sixteen words: a message block. -/
structure Block where
  m0 : UInt32
  m1 : UInt32
  m2 : UInt32
  m3 : UInt32
  m4 : UInt32
  m5 : UInt32
  m6 : UInt32
  m7 : UInt32
  m8 : UInt32
  m9 : UInt32
  m10 : UInt32
  m11 : UInt32
  m12 : UInt32
  m13 : UInt32
  m14 : UInt32
  m15 : UInt32

namespace Block

/-- The block that a byte string of at most 64 bytes fills from the start. -/
def ofBytes (bytes : List UInt8) : Block :=
  let w := wordAt bytes
  ⟨w 0, w 1, w 2, w 3, w 4, w 5, w 6, w 7, w 8, w 9, w 10, w 11, w 12, w 13, w 14, w 15⟩

/-- The block of two chaining values side by side. -/
def ofChains (l r : Chain) : Block :=
  ⟨l.low.a, l.low.b, l.low.c, l.low.d, l.high.a, l.high.b, l.high.c, l.high.d,
   r.low.a, r.low.b, r.low.c, r.low.d, r.high.a, r.high.b, r.high.c, r.high.d⟩

/-- The order of the words in the next round. -/
def permute (m : Block) : Block :=
  ⟨m.m2, m.m6, m.m3, m.m10, m.m7, m.m0, m.m4, m.m13,
   m.m1, m.m11, m.m12, m.m5, m.m9, m.m14, m.m15, m.m8⟩

end Block

/-! ### Compression -/

/-- The state of a compression, four rows of four words. -/
structure State where
  r0 : Row
  r1 : Row
  r2 : Row
  r3 : Row

/-- One column: `a`, `b`, `c`, `d` mixed with two message words. -/
def mix (a b c d x y : UInt32) : Row :=
  let a := a + b + x
  let d := rotate (d ^^^ a) 16
  let c := c + d
  let b := rotate (b ^^^ c) 12
  let a := a + b + y
  let d := rotate (d ^^^ a) 8
  let c := c + d
  let b := rotate (b ^^^ c) 7
  ⟨a, b, c, d⟩

/-- The four columns of the state, each mixed with two words of the message. -/
def State.columns (s : State) (x0 y0 x1 y1 x2 y2 x3 y3 : UInt32) : State :=
  let p := mix s.r0.a s.r1.a s.r2.a s.r3.a x0 y0
  let q := mix s.r0.b s.r1.b s.r2.b s.r3.b x1 y1
  let r := mix s.r0.c s.r1.c s.r2.c s.r3.c x2 y2
  let t := mix s.r0.d s.r1.d s.r2.d s.r3.d x3 y3
  ⟨⟨p.a, q.a, r.a, t.a⟩, ⟨p.b, q.b, r.b, t.b⟩, ⟨p.c, q.c, r.c, t.c⟩, ⟨p.d, q.d, r.d, t.d⟩⟩

/-- One round: the columns, then the diagonals, which are the columns of the sheared state. -/
def State.round (s : State) (m : Block) : State :=
  let s := s.columns m.m0 m.m1 m.m2 m.m3 m.m4 m.m5 m.m6 m.m7
  let s : State := ⟨s.r0, s.r1.turn, s.r2.turn.turn, s.r3.turn.turn.turn⟩
  let s := s.columns m.m8 m.m9 m.m10 m.m11 m.m12 m.m13 m.m14 m.m15
  ⟨s.r0, s.r1.turn.turn.turn, s.r2.turn.turn, s.r3.turn⟩

/-- `n` rounds, with the message permuted after each. -/
def State.rounds : Nat → State → Block → State
  | 0, s, _ => s
  | n + 1, s, m => State.rounds n (s.round m) m.permute

/-- A compression that has all its inputs. -/
structure Node where
  chain : Chain
  block : Block
  counter : UInt64
  length : UInt32
  flags : UInt32

def chunkStart : UInt32 := 1
def chunkEnd : UInt32 := 2
def parentFlag : UInt32 := 4
def rootFlag : UInt32 := 8

/-- The chaining value that comes out of a node, with more flags set. -/
def Node.compress (n : Node) (more : UInt32) : Chain :=
  let s : State :=
    ⟨n.chain.low, n.chain.high, initial.low,
     ⟨n.counter.toUInt32, (n.counter >>> 32).toUInt32, n.length, n.flags ||| more⟩⟩
  let s := s.rounds 7 n.block
  ⟨s.r0.xor s.r2, s.r1.xor s.r3⟩

/-! ### Chunks and the tree -/

/-- The last node of a chunk, after all blocks before it have been compressed. -/
def chunkNode : Nat → Chain → UInt32 → UInt64 → List UInt8 → Node
  | 0, chain, flags, counter, bytes =>
    ⟨chain, .ofBytes bytes, counter, UInt32.ofNat bytes.length, flags ||| chunkEnd⟩
  | more + 1, chain, flags, counter, bytes =>
    let n : Node := ⟨chain, .ofBytes (bytes.take 64), counter, 64, flags⟩
    chunkNode more (n.compress 0) 0 counter (bytes.drop 64)

/-- The node of a chunk of at most 1024 bytes with a given index. -/
def chunk (counter : UInt64) (bytes : List UInt8) : Node :=
  chunkNode ((bytes.length - 1) / 64) initial chunkStart counter bytes

/-- The number of bytes in the left subtree of a message longer than one chunk: the largest power
of two of chunks that leaves at least one byte. -/
def leftLength (length : Nat) : Nat := 1024 * 2 ^ ((length - 1) / 1024).log2

/-- The node of a subtree whose first chunk has a given index; `depth` bounds its height. -/
def subtree : Nat → UInt64 → List UInt8 → Node
  | 0, counter, bytes => chunk counter bytes
  | depth + 1, counter, bytes =>
    if bytes.length ≤ 1024 then chunk counter bytes
    else
      let left := leftLength bytes.length
      let l := subtree depth counter (bytes.take left)
      let r := subtree depth (counter + UInt64.ofNat (left / 1024)) (bytes.drop left)
      ⟨initial, .ofChains (l.compress 0) (r.compress 0), 0, 64, parentFlag⟩

/-- The hash of a byte string. -/
def hash (bytes : List UInt8) : List UInt8 :=
  let root := (subtree bytes.length 0 bytes).compress rootFlag
  root.low.bytes ++ root.high.bytes

theorem hash_length (bytes : List UInt8) : (hash bytes).length = 32 := rfl

end ScopedConfig.Blake3
