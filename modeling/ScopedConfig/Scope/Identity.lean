import ScopedConfig.Blake3
import ScopedConfig.Bytes
import ScopedConfig.Scope.Basic
import ScopedConfig.Text.Digits

/-!
# Scope identities

A scope is stored under the hash of its canonical form. The hashed bytes tell how many parameters
there are and how long each name and value is, so that different scopes never hash the same bytes.
-/

namespace ScopedConfig

/-- The 32 bytes that identify a scope. -/
structure ScopeId where
  bytes : Bytes
  length_eq : bytes.length = 32
  deriving DecidableEq

namespace ScopeId

/-- The identity of 32 bytes, and of no others. -/
def ofBytes? (bytes : Bytes) : Option ScopeId :=
  if h : bytes.length = 32 then some ⟨bytes, h⟩ else none

/-- All bytes in hexadecimal. -/
def hex (i : ScopeId) : String := Text.hexText i.bytes

/-- The first eight bytes in hexadecimal. -/
def short (i : ScopeId) : String := Text.hexText (i.bytes.take 8)

/-- The first four bytes in hexadecimal, with the kind of identity before them. -/
def label (i : ScopeId) : String := "ScopeId(" ++ Text.hexText (i.bytes.take 4) ++ ")"

/-- The order of identities, byte by byte. -/
def compare (i j : ScopeId) : Ordering := compareBytes i.bytes j.bytes
where
  compareBytes : Bytes → Bytes → Ordering
    | [], [] => .eq
    | [], _ :: _ => .lt
    | _ :: _, [] => .gt
    | a :: as, b :: bs => (Ord.compare a b).then (compareBytes as bs)

end ScopeId

namespace Scope

/-- A text with its length in front. -/
def frame (s : String) : Bytes :=
  Bytes.bigEndian 8 (Bytes.ofText s).length ++ Bytes.ofText s

/-- What is hashed of a list of parameters: their number, then each name and value. -/
def frames (params : List (String × String)) : Bytes :=
  Bytes.bigEndian 8 params.length ++ params.flatMap fun p => frame p.1 ++ frame p.2

/-- The identity of a scope. -/
def id (s : Scope) : ScopeId :=
  ⟨Blake3.hash (frames s.canonical.params), Blake3.hash_length _⟩

end Scope

end ScopedConfig
