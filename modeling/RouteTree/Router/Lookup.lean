import RouteTree.Params
import RouteTree.Router.Basic
import RouteTree.RouteValue
import RouteTree.Uri

/-!
# Looking up a request

A request is a list of components. It walks down the tree from the root and never turns back: at each
node the child with the component's own text comes first, then the open child, then the child that
takes all that is left; an empty component has only the first of these. `Node.walk` is that walk,
`Router.lookup` what a request gets from it: the value at its end, the parameters bound on the way,
and the metadata of all nodes passed. A request whose last component is empty also gets a listing of
the node it asks about.
-/

namespace RouteTree

variable {V : Type}

/-! ## 1. Walks -/

/-- Where a node sends a component. -/
inductive Turn (V : Type) where
  /-- On to this child, with the components after it. -/
  | child (n : Node V)
  /-- To this child, with all that is left. -/
  | rest (n : Node V)
  /-- Nowhere. -/
  | nowhere

namespace Node

/-- Where a node sends a component. -/
def turn (n : Node V) (component : String) : Turn V :=
  match n.child? (.exact component) with
  | some child => .child child
  | none =>
    if component = "" then .nowhere
    else match n.child? .wild with
      | some child => .child child
      | none =>
        match n.catchAllChild? with
        | some child => .rest child
        | none => .nowhere

/-- Bind the name of a node, if it has one. -/
def bindTo (n : Node V) (text : String) (params : Params) : Params :=
  match n.name with
  | some name => params.set name (.single text)
  | none => params

/-- The value of a catch-all: its components, each encoded, so that their slashes stay apart from
    those between them. -/
def restText (components : List String) : String :=
  "/".intercalate (components.map Text.Percent.encodeComponent)

end Node

/-- A walk down the tree. -/
structure Walk (V : Type) where
  /-- The nodes left behind, the root first. -/
  passed : List (Node V)
  /-- The parameters bound. -/
  params : Params
  /-- The node the walk ends at, unless it left the tree. -/
  reached : Option (Node V)
  /-- The components after the one at which the walk left the tree. -/
  unread : List String

/-- Walk down from a node. -/
def Node.walk (n : Node V) (params : Params) : List String → Walk V
  | [] => ⟨[], params, some n, []⟩
  | component :: rest =>
    match n.turn component with
    | .child child =>
      let w := child.walk (child.bindTo component params) rest
      { w with passed := n :: w.passed }
    | .rest child =>
      ⟨[n], child.bindTo (Node.restText (component :: rest)) params, some child, []⟩
    | .nowhere => ⟨[n], params, none, rest⟩

namespace Walk

/-- The value at the end of a walk. -/
def value (w : Walk V) : Option V := w.reached.bind Node.value

/-- All nodes of a walk, the root first. -/
def nodes (w : Walk V) : List (Node V) := w.passed ++ w.reached.toList

/-- The values on a walk, the one at the root first. -/
def values (w : Walk V) : List V := w.nodes.filterMap Node.value

/-- What a listing shows: the components that the last node left behind can be asked for. -/
def listing (w : Walk V) : List String :=
  match w.passed.getLast? with
  | some n => n.keys
  | none => []

end Walk

/-! ## 2. Lookups -/

/-- What a request gets. -/
structure RouteMatch (V : Type) where
  /-- The parameters bound, and the listing if there is one. -/
  params : Params
  /-- The value of the path. A mere listing may have none. -/
  value : Option V
  /-- The permissions of the whole way, the root first. -/
  permissions : List Json
  /-- The filters of the whole way, the root first. -/
  filters : List Json

/-- The request asks for a listing: its last component is empty. -/
def asksListing (path : List String) : Bool := path.getLast? = some ""

namespace Walk

/-- What the request that took a walk gets from it. -/
def result [RouteValue V] (w : Walk V) (path : List String) : RouteMatch V where
  params :=
    if asksListing path then w.params.set Params.listingKey (.list w.listing) else w.params
  value := w.value
  permissions := w.values.flatMap RouteValue.security
  filters := w.values.flatMap RouteValue.filters

end Walk

namespace Router

/-- Look up a request. A miss is logged, unless the walk left the tree with components unread. -/
def lookup [RouteValue V] (r : Router V) (path : List String) : Logged (Option (RouteMatch V)) :=
  let w := r.root.walk [] path
  if w.unread ≠ [] then pure none
  else if w.value.isSome || asksListing path then pure (some (w.result path))
  else do
    Logged.log (.lookupMiss path.length)
    return none

/-- Look up the path of a request. -/
def lookupPath [RouteValue V] (r : Router V) (path : String) : Logged (Option (RouteMatch V)) :=
  r.lookup (Path.components path)

/-- The component a segment of a URI asks for. A template has to be pinned. -/
def component (u : Uri) : Segment → Except PathFault String
  | .literal text => .ok text
  | .reserved text => .ok text
  | .param t =>
    match t.fixed with
    | some value => .ok value
    | none => .error (.unresolvedTemplate t.name u.text)
  | .tag name => .error (.metaSegment name)

/-- The components a URI asks for. -/
def componentsOf (u : Uri) : List Segment → Except PathFault (List String)
  | [] => .ok []
  | s :: rest =>
    match component u s with
    | .error fault => .error fault
    | .ok c =>
      match componentsOf u rest with
      | .error fault => .error fault
      | .ok cs => .ok (c :: cs)

/-- Look up a URI. Its origin and its parameters do not count. -/
def lookupUri [RouteValue V] (r : Router V) (u : Uri) : Attempt (Option (RouteMatch V)) :=
  match componentsOf u u.segments with
  | .error fault => Attempt.ofExcept (.error (.invalidPath fault))
  | .ok path => ExceptT.lift (r.lookup path)

end Router

end RouteTree
