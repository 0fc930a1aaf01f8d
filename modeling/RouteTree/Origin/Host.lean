import RouteTree.Error
import RouteTree.Origin.Ipv6

/-!
# Hosts

The host of an absolute URI is an address or a name. The schemes of the web read a name as a domain:
escapes are decoded, letters become lower-case, and the marks that structure a URI are refused. A
domain here is ASCII. Any other scheme keeps the name as it is written.
-/

namespace RouteTree.Origin

/-- A host in normal form. An empty name is the absence of a host. -/
inductive Host where
  | name (text : List Char)
  | ipv4 (address : Nat)
  | ipv6 (groups : List Nat)
  deriving DecidableEq, Repr

namespace Host

/-- A host as it stands in a URI. -/
def render : Host → List Char
  | name text => text
  | ipv4 address => Ipv4.render address
  | ipv6 groups => '[' :: Ipv6.render groups ++ [']']

/-- The text between brackets, if a text is one in brackets. -/
def unbracket? (text : List Char) : Option (List Char) :=
  match text with
  | '[' :: rest => if rest.getLast? = some ']' then some rest.dropLast else none
  | _ => none

/-- A host in brackets, which can only be an IPv6 address. -/
def bracketed (text : List Char) : Except OriginFault Host :=
  match (unbracket? text).bind Ipv6.parse? with
  | none => .error .ipv6Address
  | some groups => .ok (.ipv6 groups)

/-- The marks that no domain holds. -/
def domainStops : List Char :=
  ['%', '#', '/', ':', '<', '>', '?', '@', '[', '\\', ']', '^', '|']

/-- A character that a domain may hold. -/
def isDomainChar (c : Char) : Bool :=
  0x20 < c.toNat && c.toNat < 0x7F && !domainStops.contains c

/-- A name as a domain in lower case. -/
def domain? (text : List Char) : Option (List Char) := do
  let decoded ← Text.Utf8.decode? ((Text.Percent.pieces text).flatMap Text.Percent.Piece.bytes)
  if decoded.all isDomainChar then some (decoded.map Char.toLower) else none

/-- The host of a scheme of the web. -/
def ofWeb (text : List Char) : Except OriginFault Host :=
  if text.head? = some '[' then bracketed text
  else match domain? text with
    | none => .error .domainName
    | some [] => .error .emptyHost
    | some domain =>
      if Ipv4.endsInNumber domain then
        match Ipv4.parse? domain with
        | none => .error .ipv4Address
        | some address => .ok (.ipv4 address)
      else .ok (.name domain)

/-- The marks that no name holds. -/
def nameStops : List Char :=
  ['\x00', '\t', '\n', '\r', ' ', '#', '/', ':', '<', '>', '?', '@', '[', '\\', ']', '^', '|']

/-- A character that a name is written with as it stands: printable ASCII. -/
def isPrintable (c : Char) : Bool :=
  0x20 ≤ c.toNat && c.toNat < 0x7F

/-- The host of any other scheme. -/
def ofName (text : List Char) : Except OriginFault Host :=
  if text.head? = some '[' then bracketed text
  else if text.any nameStops.contains then .error .domainCharacter
  else .ok (.name (Text.Percent.encode isPrintable text))

end Host

end RouteTree.Origin
