import ScopedConfig.Json.Reader
import ScopedConfig.Settings.Basic

/-!
# Settings as JSON

Settings are an object with a member for each field, or an array of the fields in order. What is
missing takes its default; members with other names are ignored, but no field may be given twice.
-/

namespace ScopedConfig.Settings

/-! ### Fields -/

/-- A natural number below a bound, written with digits alone. -/
def natural? (bound : Nat) : Json → Option Nat
  | .number literal => (Text.decimal? literal).bind fun n => if n < bound then some n else none
  | _ => none

def count? (j : Json) : Option UInt32 := (natural? (2 ^ 32) j).map UInt32.ofNat

def milliseconds? (j : Json) : Option UInt64 := (natural? (2 ^ 64) j).map UInt64.ofNat

/-- The name of a fallback, or an object whose only member has that name and no content. -/
def fallback? : Json → Option Fallback
  | .text codes => (Json.textOf? codes).bind Fallback.ofName?
  | .object [(name, .null)] => (Json.textOf? name).bind Fallback.ofName?
  | _ => none

/-- The settings with one field read from JSON. -/
abbrev Field := Settings → Json → Option Settings

/-- The fields by name, in the order in which an array gives them. -/
def fields : List (String × Field) :=
  [("defaulting_strategy", fun s j => (fallback? j).map fun x => { s with fallback := x }),
   ("max_write_retries", fun s j => (count? j).map fun x => { s with maxWriteRetries := x }),
   ("retry_base_delay_ms", fun s j => (milliseconds? j).map fun x => { s with retryBaseDelay := x }),
   ("retry_max_delay_ms", fun s j => (milliseconds? j).map fun x => { s with retryMaxDelay := x }),
   ("busy_timeout_ms", fun s j => (milliseconds? j).map fun x => { s with busyTimeout := x })]

/-! ### Reading -/

/-- The members of an object, put into settings one after another. -/
def ofMembers? : List String → Settings → List (List Nat × Json) → Option Settings
  | _, s, [] => some s
  | seen, s, (name, j) :: rest =>
    match Json.textOf? name with
    | none => none
    | some name =>
      match fields.lookup name with
      | none => ofMembers? seen s rest
      | some field =>
        if seen.contains name then none
        else (field s j).bind fun s => ofMembers? (name :: seen) s rest

/-- The items of an array, put into settings in the order of the fields. -/
def ofItems? : List Field → Settings → List Json → Option Settings
  | _, s, [] => some s
  | [], _, _ :: _ => none
  | field :: fields, s, j :: rest => (field s j).bind fun s => ofItems? fields s rest

def ofJson? : Json → Option Settings
  | .object members => ofMembers? [] {} members
  | .array items => ofItems? (fields.map Prod.snd) {} items
  | _ => none

/-- The settings that a JSON text writes. -/
def parse? (s : String) : Option Settings := (Json.parse? s).bind ofJson?

end ScopedConfig.Settings
