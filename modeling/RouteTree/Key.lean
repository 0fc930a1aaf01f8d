import RouteTree.Segment

/-!
# Keys

A node of the tree files its children under keys. A segment decides one key: a concrete component and
a pinned template share theirs, and the name of a template is no part of it. Keys are ordered as a
listing of the tree shows them: concrete components by their text, then the one open component, then
the rest of the path, then tags.
-/

namespace RouteTree

/-- What a child is filed under. -/
inductive Key where
  /-- The component with this text. -/
  | exact (text : String)
  /-- Any one component. -/
  | wild
  /-- All components that are left. -/
  | catchAll
  /-- A tag, which no request reaches. -/
  | tag (name : String)
  deriving DecidableEq, Repr

namespace Key

/-- The order of keys. -/
def before : Key → Key → Bool
  | exact s, exact t => s < t
  | exact _, _ => true
  | wild, catchAll => true
  | wild, tag _ => true
  | catchAll, tag _ => true
  | tag s, tag t => s < t
  | _, _ => false

instance : LT Key := ⟨fun a b => before a b = true⟩

instance : DecidableLT Key := fun a b => inferInstanceAs (Decidable (before a b = true))

/-- The text of a concrete component. -/
def text? : Key → Option String
  | exact text => some text
  | _ => none

/-- How a listing of routes writes an edge whose child binds `name`. Tags are not listed. -/
def label? (name : Option String) : Key → Option String
  | exact text => some text
  | wild => some ("\x7b" ++ name.getD "" ++ "\x7d")
  | catchAll => some ("\x7b+" ++ name.getD "" ++ "\x7d")
  | tag _ => none

end Key

/-- The key a template is filed under. -/
def Template.key (t : Template) : Key :=
  if t.isCatchAll then .catchAll
  else match t.fixed with
    | some value => .exact value
    | none => .wild

/-- The key a segment is filed under. -/
def Segment.key : Segment → Key
  | .literal text => .exact text
  | .reserved text => .exact text
  | .param t => t.key
  | .tag name => .tag name

end RouteTree
