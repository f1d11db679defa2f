/-!
# JSON values

A JSON text as it is written: members in order, repeated names kept, numbers as their literals, texts
as code points among which unpaired surrogates may occur.
-/

namespace ScopedConfig

inductive Json where
  | null
  | boolean (b : Bool)
  | number (literal : List Char)
  | text (codes : List Nat)
  | array (items : List Json)
  | object (members : List (List Nat × Json))
  deriving Inhabited

namespace Json

/-- The text that code points make up, if there is no surrogate among them. -/
def textOf? (codes : List Nat) : Option String :=
  (codes.mapM fun (n : Nat) => if h : n.isValidChar then some (Char.ofNatAux n h) else none).map String.ofList

/-- The code points of a text. -/
def codesOf (s : String) : List Nat := s.toList.map Char.toNat

end Json

end ScopedConfig
