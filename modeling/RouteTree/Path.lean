import RouteTree.Text.Percent

/-!
# Request paths

A request path is cut at its slashes into components, each percent-decoded on its own, so that an
escaped slash stays inside its component. Empty components are kept: `/a//b/` has the components `a`,
the empty one, `b` and the empty one.
-/

namespace RouteTree.Path

/-- Drop the one slash a path may start with. -/
def dropLeadingSlash : List Char → List Char
  | [] => []
  | c :: rest => if c = '/' then rest else c :: rest

/-- The decoded components of a request path, given as characters. -/
def componentsOf (path : List Char) : List String :=
  ((dropLeadingSlash path).splitOn '/').map fun piece =>
    String.ofList (Text.Percent.decodeChars piece)

/-- The decoded components of a request path. -/
def components (path : String) : List String :=
  componentsOf path.toList

end RouteTree.Path
