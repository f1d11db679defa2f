import ScopedConfig.Uri.Address

/-!
# URIs in normal form

A `Uri` holds the parts of an absolute URI after normalisation: the scheme in lower case, a host
in its one printed form, a port only if it is not the scheme's own, escaped parts. `Uri.text` is
its normal form as a text.
-/

namespace ScopedConfig

namespace Uri

/-- A host in normal form. -/
inductive Host where
  | domain (name : List Char)
  | ipv4 (address : Nat)
  | ipv6 (pieces : List Nat)
  deriving DecidableEq, Repr

/-- A host as it is printed. -/
def Host.text : Host → List Char
  | .domain name => name
  | .ipv4 address => ipv4Text address
  | .ipv6 pieces => '[' :: ipv6Text pieces ++ [']']

/-- What stands between `//` and the path. -/
structure Authority where
  username : List Char
  password : List Char
  host : Option Host
  port : Option Nat
  deriving DecidableEq, Repr

/-- The user's part, with the `@` after it, if there is any. -/
def Authority.userinfo (a : Authority) : List Char :=
  if a.username.isEmpty && a.password.isEmpty then []
  else if a.password.isEmpty then a.username ++ ['@']
  else a.username ++ [':'] ++ a.password ++ ['@']

def Authority.text (a : Authority) : List Char :=
  a.userinfo ++ (a.host.map Host.text).getD [] ++
    match a.port with
    | some port => ':' :: Text.decimal port
    | none => []

/-- Why a text is no absolute URI. -/
inductive ParseError where
  | missingScheme
  | emptyHost
  | invalidName
  | invalidCharacter
  | invalidIpv4
  | invalidIpv6
  | invalidPort
  deriving DecidableEq, Repr

def ParseError.message : ParseError → String
  | .missingScheme => "relative URL without a base"
  | .emptyHost => "empty host"
  | .invalidName => "invalid international domain name"
  | .invalidCharacter => "invalid domain character"
  | .invalidIpv4 => "invalid IPv4 address"
  | .invalidIpv6 => "invalid IPv6 address"
  | .invalidPort => "invalid port number"

/-- The families of schemes that are read by rules of their own. -/
inductive Family where
  | file
  | special
  | other
  deriving DecidableEq, Repr

/-- File and web schemes know one more separator, the backslash. -/
def Family.isSpecial : Family → Bool
  | .other => false
  | _ => true

def familyOf (scheme : List Char) : Family :=
  if scheme = "file".toList then .file
  else if scheme ∈ ["http", "https", "ws", "wss", "ftp"].map String.toList then .special
  else .other

/-- The port that a scheme uses when none is given. -/
def defaultPort (scheme : List Char) : Option Nat :=
  (["http", "https", "ws", "wss", "ftp"].map String.toList).zip [80, 443, 80, 443, 21]
    |>.lookup scheme

end Uri

/-- An absolute URI in normal form. -/
structure Uri where
  scheme : List Char
  authority : Option Uri.Authority
  path : List Char
  query : Option (List Char)
  fragment : Option (List Char)
  deriving DecidableEq, Repr

namespace Uri

/-- The normal form. A path that starts with two slashes would be taken for an authority, so
without one it is kept apart by `/.`. -/
def text (u : Uri) : String :=
  let hierarchy :=
    match u.authority with
    | some a => ['/', '/'] ++ a.text ++ u.path
    | none => if ['/', '/'].isPrefixOf u.path then ['/', '.'] ++ u.path else u.path
  let part (mark : Char) : Option (List Char) → List Char
    | some cs => mark :: cs
    | none => []
  String.ofList (u.scheme ++ [':'] ++ hierarchy ++ part '?' u.query ++ part '#' u.fragment)

/-- The host as it is printed, if there is one. -/
def host? (u : Uri) : Option String :=
  (u.authority.bind Authority.host).map fun h => String.ofList h.text

end Uri

end ScopedConfig
