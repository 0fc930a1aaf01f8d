import RouteTree.Assoc
import RouteTree.Yaml.Token

/-!
# Documents

The tokens of a document make up one tree of scalars, sequences and mappings. An alias stands for the
node with its anchor; it is kept as a reference, so that a document stays as large as its text, and is
followed only where its value is asked for.
-/

namespace RouteTree.Yaml

/-- The tag of a node, with its handle resolved. -/
abbrev TagText := List UInt8

/-- A node of a document. -/
inductive Item where
  /-- A scalar; `plain` says that it stands without quotes. -/
  | scalar (tag : Option TagText) (text : String) (plain : Bool)
  | sequence (tag : Option TagText) (items : List Item)
  | mapping (tag : Option TagText) (entries : List (Item × Item))
  /-- The node with this number. -/
  | alias (number : Nat)
  deriving Repr

/-- A document: its root, the nodes with anchors by their number, and its size, which counts a scalar
    and an alias once and a collection twice. -/
structure Document where
  root : Item
  anchored : List (Nat × Item)
  size : Nat

namespace Document

/-! ## 1. Reading tokens -/

/-- What is left to read, and what is known of the anchors and the handles.

    The number of an anchor is the count of names that had one before it. A name that is used again
    leaves that count as it is, and so the next new name gets the number of the one used again. Of two
    nodes with one number the one that started later counts. -/
structure State where
  tokens : List Token
  /-- The handles and what they stand for. -/
  handles : List (String × TagText)
  /-- The number of each name. -/
  names : List (String × Nat)
  /-- For each number the count of anchors before the node that counts for it. -/
  starts : List (Nat × Nat)
  /-- The count of anchors so far. -/
  count : Nat
  /-- The nodes that are complete, by the count of anchors before them. -/
  done : List (Nat × Item)
  /-- The size so far. -/
  size : Nat

/-- A reader of tokens, which may refuse. -/
abbrev Reader := StateT State Option

/-- Refuse. -/
def refuse {α : Type} : Reader α := fun _ => none

/-- The next token, which stays where it is. -/
def peek : Reader (Option Token) := fun s => some (s.tokens.head?, s)

/-- Drop the next token. -/
def next : Reader Unit := fun s => some ((), { s with tokens := s.tokens.drop 1 })

/-- Count some steps of the document. -/
def grow (n : Nat) : Reader Unit := fun s => some ((), { s with size := s.size + n })

/-- A scalar that is not there. -/
def missing (tag : Option TagText) : Reader Item := do
  grow 1
  return .scalar tag "" true

/-! ## 2. Properties -/

/-- The anchor and the tag of a node. -/
structure Properties where
  anchor : Option String
  tag : Option Property.Tag

/-- An anchor, if one comes next. -/
def anchor? : Reader (Option String) := do
  match (← peek) with
  | some (.anchor name) => do
    next
    return some name
  | _ => return none

/-- A tag, if one comes next. -/
def tag? : Reader (Option Property.Tag) := do
  match (← peek) with
  | some (.tag t) => do
    next
    return some t
  | _ => return none

/-- The properties of a node, in either order. -/
def properties : Reader Properties := do
  match (← anchor?) with
  | some name => return ⟨some name, ← tag?⟩
  | none =>
    match (← tag?) with
    | some t => return ⟨← anchor?, some t⟩
    | none => return ⟨none, none⟩

/-- The text of a tag. Its handle has to have a meaning. -/
def tagText (t : Property.Tag) : Reader TagText := fun s =>
  if t.handle = "" then some (t.suffix, s)
  else (Assoc.lookup t.handle s.handles).map fun start => (start ++ t.suffix, s)

/-- The node with an anchor starts. The answer is the count of anchors before it. -/
def startAnchor (name : String) : Reader Nat := fun s =>
  let number := s.names.length
  some (s.count, { s with
    names := Assoc.insert name number s.names
    starts := (number, s.count) :: s.starts
    count := s.count + 1 })

/-- A node with an anchor is complete. -/
def endAnchor (start : Option Nat) (item : Item) : Reader Item := fun s =>
  match start with
  | none => some (item, s)
  | some n => some (item, { s with done := (n, item) :: s.done })

/-! ## 3. Nodes -/

/-- What ends an entry that has nothing in it. -/
def endsEntry (ends : List Token) (t : Option Token) : Bool :=
  match t with
  | some t => ends.contains t
  | none => false

mutual

/-- A node. In `block` it may be a block collection, and with `indentless` a sequence whose hyphens
    stand in the column of the mapping around it. -/
def node (block indentless : Bool) : Nat → Reader Item
  | 0 => refuse
  | fuel + 1 => do
    match (← peek) with
    | some (.alias name) => do
      next
      grow 1
      fun s => (Assoc.lookup name s.names).map fun number => (.alias number, s)
    | _ => do
      let props ← properties
      let tag ← match props.tag with
        | none => pure none
        | some t => some <$> tagText t
      let start ← match props.anchor with
        | none => pure none
        | some name => some <$> startAnchor name
      let item ← content block indentless tag (props.anchor.isSome || tag.isSome) fuel
      endAnchor start item

/-- What comes after the properties of a node. A node with properties may be empty. -/
def content (block indentless : Bool) (tag : Option TagText) (maybeEmpty : Bool) :
    Nat → Reader Item
  | 0 => refuse
  | fuel + 1 => do
    match (← peek) with
    | some (.scalar text plain) => do
      next
      grow 1
      return .scalar tag text plain
    | some .flowSequenceStart => do
      next
      grow 2
      return .sequence tag (← flowItems true [] fuel)
    | some .flowMappingStart => do
      next
      grow 2
      return .mapping tag (← flowEntries true [] fuel)
    | some .blockEntry =>
      if indentless then do
        grow 2
        return .sequence tag (← blockItems true [] fuel)
      else if maybeEmpty then missing tag
      else refuse
    | some .blockSequenceStart =>
      if block then do
        next
        grow 2
        return .sequence tag (← blockItems false [] fuel)
      else if maybeEmpty then missing tag
      else refuse
    | some .blockMappingStart =>
      if block then do
        next
        grow 2
        return .mapping tag (← blockEntries [] fuel)
      else if maybeEmpty then missing tag
      else refuse
    | _ => if maybeEmpty then missing tag else refuse

/-- A node, or nothing before one of the tokens `ends`. -/
def optional (block indentless : Bool) (ends : List Token) : Nat → Reader Item
  | 0 => refuse
  | fuel + 1 => do
    if endsEntry ends (← peek) then missing none else node block indentless fuel

/-- The items of a block sequence. One without an indentation of its own ends where no hyphen
    follows. -/
def blockItems (indentless : Bool) (items : List Item) : Nat → Reader (List Item)
  | 0 => refuse
  | fuel + 1 => do
    match (← peek) with
    | some .blockEntry => do
      next
      let ends : List Token :=
        if indentless then [.blockEntry, .key, .value, .blockEnd] else [.blockEntry, .blockEnd]
      let item ← optional true false ends fuel
      blockItems indentless (item :: items) fuel
    | some .blockEnd => do
      if indentless = false then next
      return items.reverse
    | _ => if indentless then return items.reverse else refuse

/-- The entries of a block mapping. -/
def blockEntries (entries : List (Item × Item)) : Nat → Reader (List (Item × Item))
  | 0 => refuse
  | fuel + 1 => do
    match (← peek) with
    | some .key => do
      next
      let key ← optional true true [.key, .value, .blockEnd] fuel
      let value ← blockValue fuel
      blockEntries ((key, value) :: entries) fuel
    | some .blockEnd => do
      next
      return entries.reverse
    | _ => refuse

/-- The value of an entry of a block mapping. -/
def blockValue : Nat → Reader Item
  | 0 => refuse
  | fuel + 1 => do
    match (← peek) with
    | some .value => do
      next
      optional true true [.key, .value, .blockEnd] fuel
    | _ => missing none

/-- The items of a sequence in brackets. An item with a key is a mapping of one entry. -/
def flowItems (first : Bool) (items : List Item) : Nat → Reader (List Item)
  | 0 => refuse
  | fuel + 1 => do
    match (← peek) with
    | some .flowSequenceEnd => do
      next
      return items.reverse
    | t => do
      if first = false then
        if t = some .flowEntry then next else refuse
      match (← peek) with
      | some .flowSequenceEnd => do
        next
        return items.reverse
      | some .key => do
        next
        grow 2
        let key ← flowPairKey fuel
        let value ← flowValue [.flowEntry, .flowSequenceEnd] fuel
        flowItems false (.mapping none [(key, value)] :: items) fuel
      | _ => do
        let item ← node false false fuel
        flowItems false (item :: items) fuel

/-- The key of a mapping of one entry. Where there is none, the token after it is dropped. -/
def flowPairKey : Nat → Reader Item
  | 0 => refuse
  | fuel + 1 => do
    if endsEntry [.value, .flowEntry, .flowSequenceEnd] (← peek) then do
      next
      missing none
    else node false false fuel

/-- The value of an entry in brackets. -/
def flowValue (ends : List Token) : Nat → Reader Item
  | 0 => refuse
  | fuel + 1 => do
    match (← peek) with
    | some .value => do
      next
      optional false false ends fuel
    | _ => missing none

/-- The entries of a mapping in braces. An entry without a key sign has no value. -/
def flowEntries (first : Bool) (entries : List (Item × Item)) :
    Nat → Reader (List (Item × Item))
  | 0 => refuse
  | fuel + 1 => do
    match (← peek) with
    | some .flowMappingEnd => do
      next
      return entries.reverse
    | t => do
      if first = false then
        if t = some .flowEntry then next else refuse
      match (← peek) with
      | some .flowMappingEnd => do
        next
        return entries.reverse
      | some .key => do
        next
        let key ← optional false false [.value, .flowEntry, .flowMappingEnd] fuel
        let value ← flowValue [.flowEntry, .flowMappingEnd] fuel
        flowEntries false ((key, value) :: entries) fuel
      | _ => do
        let key ← node false false fuel
        let value ← missing none
        flowEntries false ((key, value) :: entries) fuel

end

/-! ## 4. Documents -/

/-- The handles that have a meaning without a directive. -/
def defaultHandles : List (String × TagText) :=
  [("!", [33]), ("!!", Text.Utf8.encode "tag:yaml.org,2002:".toList)]

/-- Read the directives before a document. The version may be given once, as 1.1 or 1.2, and each
    handle may be given a meaning once. -/
def directives (version : Bool) (handles : List (String × TagText)) :
    List Token → Option (List (String × TagText) × List Token)
  | .directive (.version major minor) :: rest =>
    if version ∨ major ≠ 1 ∨ (minor ≠ 1 ∧ minor ≠ 2) then none
    else directives true handles rest
  | .directive (.tag handle uri) :: rest =>
    if (Assoc.lookup handle handles).isSome then none
    else directives version (Assoc.insert handle uri handles) rest
  | tokens => some (handles, tokens)

/-- The handles of a document: those given by directives, and the others by default. -/
def withDefaults (handles : List (String × TagText)) : List (String × TagText) :=
  Assoc.merge (Assoc.ofList defaultHandles) handles

/-- What comes before the first document: the meanings of handles, and whether the document starts
    with a marker. Directives need one. -/
def opening (tokens : List Token) : Option (List (String × TagText) × Bool × List Token) := do
  let (handles, rest) ← directives false [] tokens
  match rest with
  | .documentStart :: rest => return (withDefaults handles, true, rest)
  | _ => if rest.length = tokens.length then return (withDefaults [], false, rest) else none

/-- A token that ends a document without content. -/
def endsEmpty : List Token → Bool
  | [] => true
  | .directive _ :: _ => true
  | .documentStart :: _ => true
  | .documentEnd :: _ => true
  | _ => false

/-- The root of a document. It may be missing after a marker. -/
def rootItem (marked : Bool) (fuel : Nat) : Reader Item := fun s =>
  if marked ∧ endsEmpty s.tokens then missing none s else node true false fuel s

/-- The nodes with anchors by their number. -/
def anchoredItems (s : State) : List (Nat × Item) :=
  s.starts.filterMap fun start => (Assoc.lookup start.2 s.done).map ((start.1, ·))

/-- The document that is all of these tokens. There has to be exactly one. -/
def ofTokens? (tokens : List Token) : Option Document :=
  if tokens = [] then none
  else do
    let (handles, marked, rest) ← opening tokens
    let (root, s) ← rootItem marked (8 * rest.length + 8) ⟨rest, handles, [], [], 0, [], 0⟩
    if s.tokens.all (· = .documentEnd) then return ⟨root, anchoredItems s, s.size⟩ else none

/-- The document that a text is. -/
def ofText? (text : List Char) : Option Document := do
  ofTokens? (← Token.ofText? text)

end Document

end RouteTree.Yaml
