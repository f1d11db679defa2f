import ScopedConfig.Uri.Host
import ScopedConfig.Uri.Path

/-!
# Reading URIs

`Uri.parse` reads an absolute URI and brings it to normal form. White space and controls around it
are dropped, tabs and line ends anywhere. A text without a scheme is refused.
-/

namespace ScopedConfig.Uri

/-- A text without the white space and controls around it. -/
def trimmed (cs : List Char) : List Char :=
  let blank (c : Char) : Bool := c.toNat ≤ 32
  ((cs.dropWhile blank).reverse.dropWhile blank).reverse

/-- The rest of a scheme up to its colon, in lower case, and what follows the colon. -/
def schemeRest? : List Char → Option (List Char × List Char)
  | [] => none
  | c :: cs =>
    if c = ':' then some ([], cs)
    else if isLetter c || (Text.digit? c).isSome || ['+', '-', '.'].contains c then
      (schemeRest? cs).map fun (scheme, rest) => (lowerCase c :: scheme, rest)
    else none

/-- The scheme, which starts with a letter, and what follows its colon. -/
def scheme? : List Char → Option (List Char × List Char)
  | [] => none
  | c :: cs => if isLetter c then schemeRest? (c :: cs) else none

/-- The query and the fragment. -/
def tail (family : Family) (cs : List Char) : Option (List Char) × Option (List Char) :=
  let escaped := if family.isSpecial then escapedInSpecialQuery else escapedInQuery
  match cs with
  | '?' :: rest =>
    let query := escape escaped (rest.takeWhile (· ≠ '#'))
    match rest.dropWhile (· ≠ '#') with
    | _ :: fragment => (some query, some (escape escapedInFragment fragment))
    | [] => (some query, none)
  | '#' :: rest => (none, some (escape escapedInFragment rest))
  | _ => (none, none)

/-- A URI from its parts; the query and the fragment are still to be read. -/
def assemble (family : Family) (scheme : List Char) (authority : Option Authority)
    (path rest : List Char) : Uri :=
  let (query, fragment) := tail family rest
  { scheme, authority, path, query, fragment }

/-- Whether a character ends an authority. -/
def endsAuthority (special : Bool) (c : Char) : Bool :=
  c = '/' || c = '?' || c = '#' || (c = '\\' && special)

/-- Splits at the last occurrence of a character, if there is one. -/
def splitAtLast? (sep : Char) (cs : List Char) : Option (List Char × List Char) :=
  let after := cs.reverse.takeWhile (· ≠ sep)
  match cs.reverse.dropWhile (· ≠ sep) with
  | [] => none
  | _ :: before => some (before.reverse, after.reverse)

/-- The username and the password before the last `@` of the authority, and what follows it. -/
def credentials (special : Bool) (cs : List Char) :
    Except ParseError (List Char × List Char × List Char) :=
  let authority := cs.takeWhile fun c => !endsAuthority special c
  let rest := cs.dropWhile fun c => !endsAuthority special c
  match splitAtLast? '@' authority with
  | none => .ok ([], [], cs)
  | some ([], []) => if rest.isEmpty then .ok ([], [], rest) else .error .emptyHost
  | some (user, host) =>
    let username := escape escapedInUserinfo (user.takeWhile (· ≠ ':'))
    let password := escape escapedInUserinfo ((user.dropWhile (· ≠ ':')).drop 1)
    .ok (username, password, host ++ rest)

/-- The host and the port, and what follows them. -/
def hostAndPort (family : Family) (scheme cs : List Char) :
    Except ParseError (Option Host × Option Nat × List Char) := do
  let (written, rest) := hostRun family.isSpecial false cs
  let host ←
    if family.isSpecial then (if written.isEmpty then .error .emptyHost else domainHost written)
    else opaqueHost written
  let present : Option Host := if host = .domain [] then none else some host
  match rest with
  | ':' :: digits =>
    if present.isNone then .error .emptyHost
    else do
      let (port, rest) ← port? none digits
      .ok (present, if port = defaultPort scheme then none else port, rest)
  | _ => .ok (present, none, rest)

/-- A URI of a web scheme, or one of another scheme with an authority, from behind the slashes. -/
def withAuthority (family : Family) (scheme cs : List Char) : Except ParseError Uri := do
  let (username, password, rest) ← credentials family.isSpecial cs
  let (host, port, rest) ← hostAndPort family scheme rest
  if host.isNone && !(username.isEmpty && password.isEmpty) then .error .emptyHost
  else
    let authority : Authority := { username, password, host, port }
    let relative : Option (List Char) :=
      match rest with
      | '/' :: below => some below
      | '\\' :: below => some (if family.isSpecial then below else rest)
      | _ => if family.isSpecial then some rest else none
    match relative with
    | some below =>
      let (path, _, rest) := rootedPath family below
      .ok (assemble family scheme (some authority) path rest)
    | none => .ok (assemble family scheme (some authority) [] rest)

/-- What follows the first character that is not dropped, if that is a slash of either kind. -/
def afterSlash? (cs : List Char) : Option (List Char) :=
  match cs.dropWhile isDropped with
  | '/' :: rest => some rest
  | '\\' :: rest => some rest
  | _ => none

/-- A file URI with a path below a host. A path that starts with a drive has no host. -/
def onHost (scheme : List Char) (host : Option Host) (cs : List Char) : Uri :=
  let (path, drive, rest) := rootedPath .file cs
  let host := if drive then none else host
  assemble .file scheme (some { username := [], password := [], host, port := none }) path
    (kept rest)

/-- A file URI from behind its colon, as it was written. Without a host, what follows the two
slashes is a path from below the root, so that a third slash opens an empty directory. -/
def fileUri (scheme cs : List Char) : Except ParseError Uri := do
  match afterSlash? cs with
  | none => .ok (onHost scheme none cs)
  | some below =>
    match afterSlash? below with
    | none => .ok (onHost scheme none below)
    | some authority =>
      let written := kept (authority.takeWhile fun c => !endsAuthority true c)
      let rest := authority.dropWhile fun c => !endsAuthority true c
      if isDrive written then .ok (onHost scheme none authority)
      else if written.isEmpty then .ok (onHost scheme none rest)
      else
        let host ← domainHost written
        if host = .domain "localhost".toList then .ok (onHost scheme none rest)
        else .ok (onHost scheme (some host) ((afterSlash? rest).getD rest))

/-- A URI without an authority from behind its colon: hierarchical if it starts with a slash,
otherwise any text up to the query. -/
def withoutAuthority (scheme cs : List Char) : Uri :=
  match cs with
  | '/' :: below =>
    let (path, _, rest) := rootedPath .other below
    assemble .other scheme none path rest
  | _ =>
    let isMark (c : Char) : Bool := c = '?' || c = '#'
    let path := escape isControl (cs.takeWhile fun c => !isMark c)
    assemble .other scheme none path (cs.dropWhile fun c => !isMark c)

/-- The URI that a text names. -/
def parse (s : String) : Except ParseError Uri :=
  let written := trimmed s.toList
  match scheme? (kept written) with
  | none => .error .missingScheme
  | some (scheme, rest) =>
    match familyOf scheme with
    | .file => fileUri scheme ((written.dropWhile (· ≠ ':')).drop 1)
    | .special => withAuthority .special scheme (rest.dropWhile fun c => c = '/' || c = '\\')
    | .other =>
      match rest with
      | '/' :: '/' :: rest => withAuthority .other scheme rest
      | _ => .ok (withoutAuthority scheme rest)

end ScopedConfig.Uri
