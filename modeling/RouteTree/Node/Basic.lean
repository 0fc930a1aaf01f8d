import RouteTree.Assoc
import RouteTree.Error
import RouteTree.Key

/-!
# Nodes

A tree of routes is its root node. A node has the value of the path that ends there, the name under
which the component that leads to it is bound, and its children by key. A node that takes all that is
left of a path may also be its own catch-all child; this loop is a mark on the node and not an edge,
so that a tree stays a finite value and two mounts of one subtree are the subtree twice.
-/

namespace RouteTree

/-- A node of the tree. -/
structure Node (V : Type) where
  /-- The value of a path that ends here. -/
  value : Option V
  /-- The name that the component leading here is bound to. -/
  name : Option String
  /-- The node is its own catch-all child. -/
  loops : Bool
  /-- The other children, in the order of their keys. -/
  edges : List (Key × Node V)

namespace Node

variable {V : Type}

/-- The node that nothing ends at and nothing is below of. -/
def empty : Node V := ⟨none, none, false, []⟩

/-- A node with a value and nothing below. -/
def ofValue (value : V) : Node V := ⟨some value, none, false, []⟩

/-- The end of a catch-all: it goes on taking components. -/
def looping (value : V) : Node V := ⟨some value, none, true, []⟩

/-! ## 1. Values and names -/

/-- Set the value. -/
def setValue (n : Node V) (value : V) : Node V := { n with value := some value }

/-- Set the value of a node that has none. -/
def fillValue (n : Node V) (value : V) : Node V :=
  match n.value with
  | some _ => n
  | none => n.setValue value

/-- The node as the child of a segment: a template gives it its name. -/
def namedBy (n : Node V) (segment : Segment) : Node V :=
  match segment.template? with
  | some t => { n with name := some t.name }
  | none => n

/-- A node without a name takes the one a template has for it. -/
def adopt (n : Node V) (segment : Segment) : Node V :=
  match n.name with
  | some _ => n
  | none => n.namedBy segment

/-- Refuse a template that has another name for this node than the node has. -/
def checkName (n : Node V) (segment : Segment) : Except RouteError Unit :=
  match segment.template?, n.name with
  | some t, some existing =>
    if existing = t.name then .ok () else .error (.nameConflict existing t.name)
  | _, _ => .ok ()

/-! ## 2. Children -/

/-- The child filed under a key. -/
def child? (n : Node V) (key : Key) : Option (Node V) := Assoc.lookup key n.edges

/-- File a child under a key, in place of what stood there. A catch-all child ends the loop. -/
def setChild (n : Node V) (key : Key) (child : Node V) : Node V :=
  { n with
    edges := Assoc.insert key child n.edges
    loops := n.loops && key ≠ .catchAll }

/-- File a child under the key of a segment; a template gives it its name. -/
def put (n : Node V) (segment : Segment) (child : Node V) : Node V :=
  n.setChild segment.key (child.namedBy segment)

/-- The child that a segment stands for. An open template stands only for a child with its name. -/
def childAt? (n : Node V) (segment : Segment) : Option (Node V) :=
  match n.child? segment.key with
  | none => none
  | some child =>
    match segment.template? with
    | some t =>
      if t.fixed = none ∧ child.name ≠ some t.name then none else some child
    | none => some child

/-- The child that takes all that is left of a path. -/
def catchAllChild? (n : Node V) : Option (Node V) :=
  if n.loops then some n else n.child? .catchAll

/-- Something is below the node. -/
def hasChildren (n : Node V) : Bool := n.loops || !n.edges.isEmpty

/-- The node has a value or something below it. -/
def isUsed (n : Node V) : Bool := n.value.isSome || n.hasChildren

theorem child?_setChild_self (n child : Node V) (key : Key) :
    (n.setChild key child).child? key = some child :=
  Assoc.lookup_insert_self key child n.edges

theorem child?_setChild_of_ne {key other : Key} (h : other ≠ key) (n child : Node V) :
    (n.setChild key child).child? other = n.child? other :=
  Assoc.lookup_insert_of_ne h child n.edges

/-! ## 3. Listings -/

/-- The components that a listing of this node shows. There are none if the node takes components
    that cannot be listed, and the empty component is shown only if something is below it. -/
def keys (n : Node V) : List String :=
  if (n.child? .wild).isSome || n.catchAllChild?.isSome then []
  else n.edges.filterMap fun edge =>
    match edge.1.text? with
    | some text => if text ≠ "" ∨ edge.2.hasChildren then some text else none
    | none => none

/-- The value of a node as the route that ends there. -/
def ownRoute : Option V → List (List String × V)
  | none => []
  | some value => [([], value)]

mutual

/-- The routes of a tree, each as its path and its value: a node before what is below it, and its
    children in the order of their keys. -/
def routes : Node V → List (List String × V)
  | ⟨value, _, _, edges⟩ => ownRoute value ++ edgesRoutes edges
termination_by structural n => n

/-- The routes below some edges. -/
def edgesRoutes : List (Key × Node V) → List (List String × V)
  | [] => []
  | edge :: rest => edgeRoutes edge ++ edgesRoutes rest
termination_by structural edges => edges

/-- The routes below one edge. -/
def edgeRoutes : Key × Node V → List (List String × V)
  | (key, child) =>
    match key.label? child.name with
    | none => []
    | some label => (routes child).map fun route => (label :: route.1, route.2)
termination_by structural edge => edge

end

end Node

end RouteTree
