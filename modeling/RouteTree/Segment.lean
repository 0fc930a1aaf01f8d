import RouteTree.Text.Percent

/-!
# Segments

A path or a pattern is a list of segments. A segment is a component of a path, a template that stands
for one or for several components, or a tag that no path ever reaches. This file fixes their
types and the text each is written as in a pattern.
-/

namespace RouteTree

/-- How many components a template stands for when it is not exactly one. -/
inductive Modifier where
  /-- `{/name}`: the component may be absent. -/
  | optional
  /-- `{+name}`: all components that are left. -/
  | catchAll
  deriving DecidableEq, Repr

namespace Modifier

/-- The sign a modifier is written as. -/
def symbol : Modifier → Char
  | optional => '/'
  | catchAll => '+'

end Modifier

/-- A template: the name it binds, and the value it is pinned to, if any. -/
structure Template where
  name : String
  modifier : Option Modifier
  fixed : Option String
  deriving DecidableEq, Repr

namespace Template

/-- The template that stands for one component and binds `name`. -/
def named (name : String) : Template := ⟨name, none, none⟩

/-- The template stands for at most one component. -/
def isOptional (t : Template) : Bool := t.modifier = some .optional

/-- The template stands for all components that are left. -/
def isCatchAll (t : Template) : Bool := t.modifier = some .catchAll

/-- What a template opens with in a pattern. The slash of a modified template is implied. -/
def opening (t : Template) : String :=
  match t.modifier with
  | none => "/\x7b"
  | some .optional => "\x7b/"
  | some .catchAll => "\x7b+"

/-- A template as it is written in a pattern. -/
def display (t : Template) : String :=
  t.opening ++ t.name
    ++ (match t.fixed with
      | none => ""
      | some value => ":" ++ value)
    ++ "\x7d"

end Template

/-- One unit of a path or a pattern. -/
inductive Segment where
  /-- A component, already decoded. -/
  | literal (text : String)
  /-- A component that came out of a catch-all value; it keeps its reserved characters. -/
  | reserved (text : String)
  /-- A component that is left open. -/
  | param (template : Template)
  /-- A tag, which no request reaches. -/
  | tag (name : String)
  deriving DecidableEq, Repr

namespace Segment

/-- The text of a component that is not left open. -/
def text? : Segment → Option String
  | literal text => some text
  | reserved text => some text
  | param _ => none
  | tag _ => none

/-- The template of a component that is left open. -/
def template? : Segment → Option Template
  | param t => some t
  | _ => none

/-- The segment is a template that may be absent. -/
def isOptional : Segment → Bool
  | param t => t.isOptional
  | _ => false

/-- The segment is a template that takes all that is left. -/
def isCatchAll : Segment → Bool
  | param t => t.isCatchAll
  | _ => false

/-- A segment as it is written in a pattern. -/
def display : Segment → String
  | literal text => "/" ++ Text.Percent.encodeComponent text
  | reserved text => "/" ++ Text.Percent.encodeReserved text
  | param t => t.display
  | tag name => "<meta:" ++ name ++ ">"

/-- A list of segments as it is written in a pattern. -/
def displayAll (segments : List Segment) : String :=
  String.join (segments.map display)

end Segment

end RouteTree
