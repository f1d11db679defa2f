import ScopedConfig.Uri.Basic
import ScopedConfig.Uri.Percent

/-!
# Paths

A hierarchical path is read segment by segment: `.` stays where it is, `..` goes up, and neither is
kept, however its dots are written. A segment that looks like a drive letter is never left again. At
the top of a file path it is a drive, and `C|` becomes `C:`.
-/

namespace ScopedConfig.Uri

/-- Tabs and line ends are dropped wherever they stand. -/
def isDropped (c : Char) : Bool := c = '\t' || c = '\n' || c = '\r'

/-- A text without the characters that are dropped. -/
def kept (cs : List Char) : List Char := cs.filter fun c => !isDropped c

/-- The segments up to the end of the path, and what follows it. -/
def segments (special : Bool) : List Char → List (List Char) × List Char
  | [] => ([[]], [])
  | c :: cs =>
    if c = '?' || c = '#' then ([[]], c :: cs)
    else
      let (parts, rest) := segments special cs
      if c = '/' || (c = '\\' && special) then ([] :: parts, rest)
      else
        match parts with
        | [] => ([[c]], rest)
        | part :: parts => ((c :: part) :: parts, rest)

/-- A segment with its escaped dots written plainly, if it has nothing else. -/
def dots? : List Char → Option Nat
  | [] => some 0
  | '.' :: rest => (dots? rest).map (· + 1)
  | '%' :: '2' :: 'e' :: rest => (dots? rest).map (· + 1)
  | '%' :: '2' :: 'E' :: rest => (dots? rest).map (· + 1)
  | _ => none

def isLetter (c : Char) : Bool :=
  (65 ≤ c.toNat && c.toNat ≤ 90) || (97 ≤ c.toNat && c.toNat ≤ 122)

/-- A letter followed by a colon or a bar, and nothing else. -/
def isDrive : List Char → Bool
  | [a, b] => isLetter a && (b = ':' || b = '|')
  | _ => false

/-- A drive, also before a backslash. -/
def startsWithDrive : List Char → Bool
  | a :: b :: '\\' :: _ => isDrive [a, b]
  | cs => isDrive cs

/-- The directories after going up once, the innermost first. -/
def leave : List (List Char) → List (List Char)
  | [] => []
  | dir :: dirs => if startsWithDrive dir then dir :: dirs else dirs

/-- The path under construction: directories, the innermost first, and whether a drive is at the
top. -/
structure Walk where
  dirs : List (List Char)
  drive : Bool

/-- The directories as a text. -/
def Walk.text (w : Walk) : List Char := (w.dirs.reverse.map (· ++ ['/'])).flatten

/-- A drive and the rest of its segment, where a dropped character stands between the two. -/
def dividedDrive? (written : List Char) : Option (Char × List Char) :=
  match written.dropWhile isDropped with
  | [] => none
  | letter :: cs =>
    match cs.dropWhile isDropped with
    | ':' :: gap :: rest =>
      if isLetter letter && isDropped gap && !(kept rest).isEmpty then some (letter, kept rest)
      else none
    | _ => none

/-- The path inside a segment, which is given as it was written. At the top of a file path a drive
gets its colon; a divided drive is a directory of its own there, and its rest is a name even if
it consists of dots. -/
def Walk.enter (file : Bool) (w : Walk) (written : List Char) : Walk :=
  let segment := escape escapedInPath (kept written)
  if file && w.dirs.isEmpty then
    match dividedDrive? written with
    | some (letter, below) => { w with dirs := [escape escapedInPath below, [letter, ':']] }
    | none =>
      if isDrive segment then ⟨[segment.take 1 ++ [':']], true⟩ else { w with dirs := [segment] }
  else { w with dirs := segment :: w.dirs }

/-- The path that a list of segments names, as a text from below the root, and whether it starts
with a drive. The last segment has no slash after it. -/
def walk (file : Bool) : Walk → List (List Char) → List Char × Bool
  | w, [] => (w.text, w.drive)
  | w, written :: rest =>
    match dots? (kept written), rest with
    | some 1, rest => walk file w rest
    | some 2, rest => walk file { w with dirs := leave w.dirs } rest
    | _, [] => ((w.enter file written).text.dropLast, (w.enter file written).drive)
    | _, rest => walk file (w.enter file written) rest

/-- The path below the root, whether it starts with a drive, and what follows it. -/
def rootedPath (family : Family) (cs : List Char) : List Char × Bool × List Char :=
  let (parts, rest) := segments family.isSpecial cs
  let (below, drive) := walk (family = .file) ⟨[], false⟩ parts
  let below := if family = .file then below.dropWhile (· = '/') else below
  ('/' :: below, drive, rest)

end ScopedConfig.Uri
