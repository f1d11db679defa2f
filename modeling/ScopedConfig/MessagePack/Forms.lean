import ScopedConfig.MessagePack.Reader
import ScopedConfig.Record
import ScopedConfig.Scope.Identity

/-!
# Packed forms

How values, scopes, records and entries are written as MessagePack, each with its reader. A structure
is an array of its parts; an alternative without content is its name, one with content a map from the
name to the content.
-/

namespace ScopedConfig

open MessagePack

/-! ### Texts and byte strings -/

namespace MessagePack

def packText (s : String) : Bytes :=
  (Head.text (Bytes.ofText s).length).write ++ Bytes.ofText s

def packBinary (bytes : Bytes) : Bytes := (Head.binary bytes.length).write ++ bytes

/-- An alternative with content that is packed already. -/
def packAlternative (name : String) (content : Bytes) : Bytes :=
  (Head.map 1).write ++ packText name ++ content

end MessagePack

open Reader

/-! ### Values -/

namespace Value

def pack : Value → Bytes
  | .unset => packText "Unset"
  | .null => packText "Null"
  | .text s => packAlternative "Text" (packText s)
  | .integer i => packAlternative "Integer" (Head.integer i.toInt).write
  | .float bits => packAlternative "Float" (Head.float64 bits).write
  | .boolean b => packAlternative "Boolean" (Head.boolean b).write
  | .uri u => packAlternative "Uri" (packText u.text)

/-- The content of an alternative, from its name and whether there is any. -/
def content : String × Bool → Reader Value
  | ("Unset", false) => done .unset
  | ("Unset", true) => next nil fun _ => done .unset
  | ("Null", false) => done .null
  | ("Null", true) => next nil fun _ => done .null
  | ("Text", true) => next Reader.text fun s => done (.text s)
  | ("Integer", true) => next Reader.signed fun i => done (.integer i)
  | ("Float", true) => next Reader.float fun bits => done (.float bits)
  | ("Boolean", true) => next Reader.boolean fun b => done (.boolean b)
  | ("Uri", true) =>
    next plainText fun s =>
      match Uri.parse s with
      | .ok u => done (.uri u)
      | .error _ => refuse
  | _ => refuse

def reader : Reader Value := next alternative content

def unpack? (bytes : Bytes) : Option Value := (reader bytes).map Prod.fst

end Value

/-! ### Parameters and scopes -/

namespace Parameter

def pack (p : Parameter) : Bytes :=
  (Head.array 2).write ++ packText p.name ++
    match p.pattern with
    | .exactly value => packAlternative "Exact" (packText value)
    | .anything => packText "Any"

def patternReader : Reader Pattern :=
  next alternative fun
    | ("Exact", true) => next Reader.text fun value => done (.exactly value)
    | ("Any", false) => done .anything
    | ("Any", true) => next nil fun _ => done .anything
    | _ => refuse

def reader : Reader Parameter :=
  next (tuple 2) fun _ => next Reader.text fun name => next patternReader fun pattern =>
    done ⟨name, pattern⟩

def unpack? (bytes : Bytes) : Option Parameter := (reader bytes).map Prod.fst

end Parameter

namespace Scope

def packPair (p : String × String) : Bytes :=
  (Head.array 2).write ++ packText p.1 ++ packText p.2

def pack (s : Scope) : Bytes :=
  (Head.array 1).write ++ (Head.array s.params.length).write ++ s.params.flatMap packPair

def pairReader : Reader (String × String) :=
  next (tuple 2) fun _ => next Reader.text fun name => next Reader.text fun value =>
    done (name, value)

/-- A scope as it was written: names are not checked again. -/
def reader : Reader Scope :=
  next (tuple 1) fun _ => next (array pairReader) fun params => done ⟨params⟩

def unpack? (bytes : Bytes) : Option Scope := (reader bytes).map Prod.fst

end Scope

/-! ### Identities -/

namespace BatchId

def pack (i : BatchId) : Bytes := packBinary i.bytes

def reader : Reader BatchId := next binary fun bytes => accept (ofBytes? bytes)

def unpack? (bytes : Bytes) : Option BatchId := (reader bytes).map Prod.fst

end BatchId

namespace ScopeId

def reader : Reader ScopeId :=
  next (tuple 32) fun _ => next (items byte 32) fun bytes => accept (ofBytes? bytes)

def unpack? (bytes : Bytes) : Option ScopeId := (reader bytes).map Prod.fst

end ScopeId

/-! ### Records and entries -/

namespace ScopeRecord

def pack (r : ScopeRecord) : Bytes :=
  (Head.array 3).write ++ r.scope.pack ++ (Head.integer r.working.toNat).write ++
    match r.active with
    | some n => (Head.integer n.toNat).write
    | none => Head.nil.write

def reader : Reader ScopeRecord :=
  next (tuple 3) fun _ => next Scope.reader fun scope => next unsigned fun working =>
    next (orNil unsigned) fun active => done ⟨scope, working, active⟩

def unpack? (bytes : Bytes) : Option ScopeRecord := (reader bytes).map Prod.fst

end ScopeRecord

namespace Entry

def pack (e : Entry) : Bytes :=
  (Head.array 3).write ++ (Head.integer e.revision.toNat).write ++ e.value.pack ++ e.batch.pack

def reader : Reader Entry :=
  next (tuple 3) fun _ => next unsigned fun revision => next Value.reader fun value =>
    next BatchId.reader fun batch => done ⟨revision, value, batch⟩

def unpack? (bytes : Bytes) : Option Entry := (reader bytes).map Prod.fst

end Entry

end ScopedConfig
