import RouteTree.Yaml.Document
import RouteTree.Yaml.Number

/-!
# Values in a document

A node of a document has a JSON value. What a plain scalar says is decided by its text, unless a tag
says what it is. Tags of one's own have no value, nor have integers beyond 64 bits and keys that are
collections. Aliases are followed, up to a number of times that the size of the document sets, and
collections may stand in one another up to a depth.
-/

namespace RouteTree.Yaml

/-! ## 1. Scalars -/

namespace Scalar

/-- The texts of null. -/
def isNull (text : String) : Bool := ["null", "Null", "NULL", "~"].contains text

/-- The truth value that a text writes. -/
def bool? (text : String) : Option Bool :=
  if ["true", "True", "TRUE"].contains text then some true
  else if ["false", "False", "FALSE"].contains text then some false
  else none

/-- The value of an integer, which may be too large to have one. The outer part says whether the text
    counts as an integer at all. -/
def integer? (text : String) : Option (Option Json) :=
  match Number.integer? text.toList with
  | none => none
  | some n =>
    match Number.fit n with
    | .word => some (some (.int n))
    | .wide => some none
    | .none => none

/-- The value of a plain scalar without a tag. -/
def plain (text : String) : Option Json :=
  if text = "" ∨ isNull text then some .null
  else match bool? text with
    | some b => some (.bool b)
    | none =>
      match integer? text with
      | some value => value
      | none =>
        if Number.isPadded text.toList then some (.str text)
        else some ((Number.decimal? text.toList).getD (.str text))

/-- The tags of the format. -/
def coreTag (name : String) : TagText := Text.Utf8.encode ("tag:yaml.org,2002:" ++ name).toList

/-- The value of a scalar with a tag of the format. Any other tag says that it is a text. -/
def tagged (tag : TagText) (text : String) : Option Json :=
  if tag = coreTag "bool" then (bool? text).map .bool
  else if tag = coreTag "int" then (integer? text).getD none
  else if tag = coreTag "float" then Number.decimal? text.toList
  else if tag = coreTag "null" then if isNull text then some .null else none
  else some (.str text)

/-- A tag of one's own: it starts with an exclamation mark, and what follows names a variant. The bare
    mark is one too; its name is empty. -/
def isOwnTag (tag : Option TagText) : Bool :=
  match tag with
  | some (33 :: rest) => (Text.Utf8.decode? rest).isSome
  | _ => false

/-- The value of a scalar. -/
def value (tag : Option TagText) (text : String) (isPlain : Bool) : Option Json :=
  if isOwnTag tag then none
  else match tag with
    | some (33 :: _) => if isPlain then plain text else some (.str text)
    | some t => tagged t text
    | none => if isPlain then plain text else some (.str text)

end Scalar

/-! ## 2. Following aliases -/

/-- A reader of nodes, which may refuse. Its state is the number of aliases it may still follow. -/
abbrev Visit := StateT Nat Option

namespace Document

/-- How deep collections may stand in one another. -/
def maxDepth : Nat := 128

/-- How many aliases may be followed: a hundred for each step of the document. -/
def maxJumps (d : Document) : Nat := 100 * d.size

/-- The node that an item is, or that it is an alias of. -/
def follow (d : Document) : Item → Visit Item
  | .alias number => fun jumps =>
    match jumps with
    | 0 => none
    | left + 1 => (Assoc.lookup number d.anchored).map ((·, left))
  | item => pure item

/-- The text of a scalar, whatever its tag. -/
def text (d : Document) (item : Item) : Visit String := do
  match (← d.follow item) with
  | .scalar _ text _ => return text
  | _ => fun _ => none

/-- A scalar without text that stands for an empty collection. -/
def isBare (text : String) (plain : Bool) : Bool := text = "" && plain

/-- The items of a sequence, whatever its tag. -/
def items (d : Document) (item : Item) : Visit (List Item) := do
  match (← d.follow item) with
  | .sequence _ items => return items
  | .scalar _ text plain => if isBare text plain then return [] else fun _ => none
  | _ => fun _ => none

/-- The entries of a mapping, whatever its tag. -/
def entries (d : Document) (item : Item) : Visit (List (Item × Item)) := do
  match (← d.follow item) with
  | .mapping _ entries => return entries
  | .scalar _ text plain => if isBare text plain then return [] else fun _ => none
  | _ => fun _ => none

/-- The value of a node in collections that leave room for `depth` more. Of two entries with one key
    the later one counts. -/
def value (d : Document) : Nat → Item → Visit Json
  | depth, item => do
    match (← d.follow item) with
    | .scalar tag text plain => fun jumps => (Scalar.value tag text plain).map ((·, jumps))
    | .sequence tag items =>
      match depth with
      | 0 => fun _ => none
      | depth + 1 =>
        if Scalar.isOwnTag tag then fun _ => none
        else return .arr (← items.mapM (value d depth))
    | .mapping tag entries =>
      match depth with
      | 0 => fun _ => none
      | depth + 1 =>
        if Scalar.isOwnTag tag then fun _ => none
        else
          let fields ← entries.mapM fun entry => do
            let name ← d.text entry.1
            let field ← value d depth entry.2
            return (name, field)
          return Json.mkObj fields
    | .alias _ => fun _ => none

end Document

end RouteTree.Yaml
