/-!
# What can go wrong

Every refusal of the library is a cause, not a text: the inductive types below say what was wrong and
with which piece of the input, and `RouteError.message` alone words it.
-/

namespace RouteTree

/-- Why a text is no pattern. -/
inductive SyntaxFault where
  /-- A group starts with a slash or a brace; `rest` starts with neither. -/
  | groupExpected (rest : String)
  /-- An opening brace without its closing one. -/
  | unclosedBrace
  /-- The body of a template starts with an operator that has no meaning here. -/
  | unsupportedOperator (operator : Char)
  /-- A template without an operator of its own that does not follow a slash. -/
  | slashRequired (body : String)
  /-- A template without a name. -/
  | emptyName
  /-- A character that no parameter name holds. -/
  | nameCharacter (char : Char) (name : String)
  /-- A colon after the name, and nothing after the colon. -/
  | emptyFixedValue (name : String)
  deriving DecidableEq, Repr

/-- Why the authority of an absolute URI is refused. -/
inductive OriginFault where
  | emptyHost
  | domainName
  | domainCharacter
  | portNumber
  | ipv4Address
  | ipv6Address
  deriving DecidableEq, Repr

/-- Why a text or a list of segments is no path. -/
inductive PathFault where
  /-- The authority of the absolute URI `input` is refused. -/
  | origin (input : String) (fault : OriginFault)
  /-- A scheme that no two slashes follow. -/
  | missingAuthority (input : String)
  /-- A question mark or a number sign in the path of an absolute URI. -/
  | queryOrFragment (input : String)
  /-- A template that fixes no value, in a URI that is looked up. -/
  | unresolvedTemplate (name : String) (uri : String)
  /-- A tag, in a URI that is looked up. -/
  | metaSegment (name : String)
  deriving DecidableEq, Repr

/-- What the library leaves to the caller. -/
inductive Unsupported where
  | routeRemoval
  | specRemoval
  deriving DecidableEq, Repr

/-- Why a file gives no text. -/
inductive FileFault where
  | notFound
  | notUtf8
  deriving DecidableEq, Repr

/-- The refusals of the library. -/
inductive RouteError where
  /-- Input that is no path. -/
  | invalidPath (fault : PathFault)
  /-- Input that is no pattern. -/
  | malformedPattern (pattern : String) (fault : SyntaxFault)
  /-- A position of the tree that already binds another name. -/
  | nameConflict (existing requested : String)
  /-- A template that needs a value and has none. -/
  | missingParameter (name : String)
  /-- An operation that is refused on purpose. -/
  | notImplemented (operation : Unsupported)
  /-- A document that describes no routes. -/
  | malformedSpec
  /-- A document that cannot be read. -/
  | unreadableFile (fault : FileFault)
  deriving DecidableEq, Repr

/-! ## Wording -/

namespace SyntaxFault

/-- The reason in words. -/
def message : SyntaxFault → String
  | groupExpected rest => "expected '/' or '\x7b' before '" ++ rest ++ "'"
  | unclosedBrace => "unbalanced '\x7b'"
  | unsupportedOperator operator => "unsupported modifier '" ++ operator.toString ++ "'"
  | slashRequired body =>
    "template '\x7b" ++ body ++ "\x7d' must follow '/' or use the '/' or '+' modifier"
  | emptyName => "empty parameter name"
  | nameCharacter char name =>
    "invalid character '" ++ char.toString ++ "' in parameter name '" ++ name ++ "'"
  | emptyFixedValue name => "empty fixed value for parameter '" ++ name ++ "'"

end SyntaxFault

namespace OriginFault

/-- The reason in words. -/
def message : OriginFault → String
  | emptyHost => "empty host"
  | domainName => "invalid international domain name"
  | domainCharacter => "invalid domain character"
  | portNumber => "invalid port number"
  | ipv4Address => "invalid IPv4 address"
  | ipv6Address => "invalid IPv6 address"

end OriginFault

namespace PathFault

/-- The reason in words. -/
def message : PathFault → String
  | origin input fault => input ++ ": " ++ fault.message
  | missingAuthority input => input ++ ": missing authority"
  | queryOrFragment input => input ++ ": query and fragment are not supported"
  | unresolvedTemplate name uri => "unresolved template '" ++ name ++ "' in " ++ uri
  | metaSegment name => "meta segment '" ++ name ++ "' in lookup path"

end PathFault

namespace Unsupported

/-- The operation in words. -/
def message : Unsupported → String
  | routeRemoval => "route removal; rebuild the router instead"
  | specRemoval => "spec removal; rebuild the router instead"

end Unsupported

namespace FileFault

/-- The reason in words. -/
def message : FileFault → String
  | notFound => "No such file or directory (os error 2)"
  | notUtf8 => "stream did not contain valid UTF-8"

end FileFault

namespace RouteError

/-- The refusal in words, with its code in front. -/
def message : RouteError → String
  | invalidPath fault => "E2001: invalid path: " ++ fault.message
  | malformedPattern pattern fault =>
    "E2002: syntax error in pattern '" ++ pattern ++ "': " ++ fault.message
  | nameConflict existing requested =>
    "E2003: parameter name conflict: node binds '" ++ existing ++ "', pattern requests '"
      ++ requested ++ "'"
  | missingParameter name => "E2004: parameter '" ++ name ++ "' not defined"
  | notImplemented operation => "E2005: not implemented: " ++ operation.message
  | malformedSpec => "E2010: spec parse error"
  | unreadableFile fault => "I/O error: " ++ fault.message

end RouteError

end RouteTree
