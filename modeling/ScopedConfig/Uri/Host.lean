import ScopedConfig.Uri.Basic
import ScopedConfig.Uri.Percent

/-!
# Reading hosts

Web and file schemes read a host as a domain name: unescaped, in lower case, an IPv4 address if
its last label is a number. Other schemes keep the host as it is written, with controls and
non-ASCII characters escaped. Both know IPv6 addresses between brackets.
-/

namespace ScopedConfig.Uri

/-- ASCII characters that no domain name may hold. -/
def forbiddenInDomain (b : UInt8) : Bool :=
  b ≤ 32 || b = 127 || (Bytes.ofText "%#/:<>?@[\\]^|").contains b

/-- Characters that no host may hold, of whatever scheme. -/
def forbiddenInHost (c : Char) : Bool :=
  ['\x00', '\t', '\n', '\r', ' ', '#', '/', ':', '<', '>', '?', '@', '[', '\\', ']', '^', '|'].contains c

/-- An ASCII letter in lower case. -/
def lowerCase (c : Char) : Char :=
  if 65 ≤ c.toNat ∧ c.toNat ≤ 90 then Char.ofNat (c.toNat + 32) else c

/-- The IPv6 address between brackets, where the host starts with one. -/
def bracketed? (cs : List Char) : Option (Except ParseError Host) :=
  match cs with
  | '[' :: inner =>
    if inner.getLast? = some ']' then
      match ipv6? inner.dropLast with
      | some pieces => some (.ok (.ipv6 pieces))
      | none => some (.error .invalidIpv6)
    else some (.error .invalidIpv6)
  | _ => none

/-- A host of a web or file scheme. Names outside ASCII are not known here. -/
def domainHost (cs : List Char) : Except ParseError Host :=
  match bracketed? cs with
  | some host => host
  | none =>
    let bytes := unescape cs
    if bytes.any fun b => 127 < b || forbiddenInDomain b then .error .invalidName
    else
      let name := bytes.map fun b => lowerCase (Char.ofNat b.toNat)
      if name.isEmpty then .error .emptyHost
      else if endsInNumber name then
        match ipv4? name with
        | some address => .ok (.ipv4 address)
        | none => .error .invalidIpv4
      else .ok (.domain name)

/-- A host of any other scheme. -/
def opaqueHost (cs : List Char) : Except ParseError Host :=
  match bracketed? cs with
  | some host => host
  | none =>
    if cs.any forbiddenInHost then .error .invalidCharacter
    else .ok (.domain (escape isControl cs))

/-- The host at the start of a text and what follows it. A colon ends a host unless it stands
between brackets. -/
def hostRun (special : Bool) : Bool → List Char → List Char × List Char
  | _, [] => ([], [])
  | inBrackets, c :: cs =>
    if (c = ':' && !inBrackets) || (c = '\\' && special) || c = '/' || c = '?' || c = '#' then
      ([], c :: cs)
    else
      let inBrackets := if c = '[' then true else if c = ']' then false else inBrackets
      let (host, rest) := hostRun special inBrackets cs
      (c :: host, rest)

/-- A port number, none if no digit is there, and what follows it. -/
def port? : Option Nat → List Char → Except ParseError (Option Nat × List Char)
  | port, [] => .ok (port, [])
  | port, c :: cs =>
    match Text.digit? c with
    | some d =>
      let port := 10 * port.getD 0 + d
      if 65535 < port then .error .invalidPort else port? (some port) cs
    | none =>
      if c = '/' || c = '\\' || c = '?' || c = '#' then .ok (port, c :: cs)
      else .error .invalidPort

end ScopedConfig.Uri
