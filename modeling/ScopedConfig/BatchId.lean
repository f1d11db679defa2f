import ScopedConfig.Bytes
import ScopedConfig.Text.Digits

/-!
# Batch identities

Every write batch has an identity of 16 bytes, which all its entries carry. Identities made here
are version 7 UUIDs: they start with the time, so they sort by it.
-/

namespace ScopedConfig

/-- The 16 bytes that identify a write batch. -/
structure BatchId where
  bytes : Bytes
  length_eq : bytes.length = 16
  deriving DecidableEq

namespace BatchId

/-- The identity of 16 bytes, and of no others. -/
def ofBytes? (bytes : Bytes) : Option BatchId :=
  if h : bytes.length = 16 then some ⟨bytes, h⟩ else none

/-- The identity made at a time in milliseconds with a number that tells it apart from others made
at that time: 48 bits of time and 62 of the number, around the marks of version and variant. -/
def stamped (milliseconds number : Nat) : BatchId :=
  ⟨Bytes.bigEndian 6 milliseconds ++ [0x70, 0] ++
    Bytes.bigEndian 8 (2 ^ 63 + number % 2 ^ 62), by simp⟩

/-- The version of the UUID: the high half of its seventh byte. -/
def version (i : BatchId) : Nat := (i.bytes.getD 6 0).toNat / 16

/-- All digits in hexadecimal, in five groups. -/
def text (i : BatchId) : String :=
  let group (start size : Nat) : String := Text.hexText ((i.bytes.drop start).take size)
  "-".intercalate [group 0 4, group 4 2, group 6 2, group 8 2, group 10 6]

/-- The first twelve digits, with the kind of identity before them. -/
def label (i : BatchId) : String := "BatchId(" ++ Text.hexText (i.bytes.take 6) ++ ")"

end BatchId

end ScopedConfig
