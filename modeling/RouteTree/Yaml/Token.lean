import RouteTree.Yaml.Block
import RouteTree.Yaml.Plain
import RouteTree.Yaml.Property
import RouteTree.Yaml.Quoted

/-!
# Tokens

A document is cut into tokens from left to right. Indentation gives tokens too: a block collection
starts where a line is indented further and ends where one is indented less. Whether a scalar is a key
is known only at the colon after it; until then its place is kept in mind, and the tokens of the key
are inserted there.
-/

namespace RouteTree.Yaml

/-- A token of a document. -/
inductive Token where
  | directive (d : Property.Directive)
  | documentStart
  | documentEnd
  | blockSequenceStart
  | blockMappingStart
  | blockEnd
  | flowSequenceStart
  | flowSequenceEnd
  | flowMappingStart
  | flowMappingEnd
  | blockEntry
  | flowEntry
  | key
  | value
  | alias (name : String)
  | anchor (name : String)
  | tag (t : Property.Tag)
  /-- A scalar; `plain` says that it stands without quotes on the lines of its collection. -/
  | scalar (text : String) (plain : Bool)
  deriving DecidableEq, Repr

/-- The place of what may turn out to be a key. -/
structure KeyPlace where
  /-- The number of tokens before it. -/
  tokens : Nat
  mark : Mark
  /-- It has to be a key: it stands where the next key of a block mapping does. -/
  required : Bool
  deriving DecidableEq, Repr

/-- What has been read of a document, and what is left. -/
structure Scanner where
  cursor : Cursor
  tokens : Array Token
  /-- The column of the innermost block collection, `-1` outside of any. -/
  indent : Int
  /-- The columns of the collections around it, the innermost first. -/
  outer : List Int
  /-- For the block level and each bracket around the cursor, the innermost first: what may turn out
      to be a key there. -/
  places : List (Option KeyPlace)
  /-- A key may start here. -/
  keyAllowed : Bool

namespace Scanner

/-- The start of a document. -/
def start (text : List Char) : Scanner :=
  ⟨⟨Mark.start, text⟩, #[], -1, [], [none], true⟩

/-- The cursor stands inside brackets. -/
def inFlow (s : Scanner) : Bool := 1 < s.places.length

/-- The text that is left. -/
def text (s : Scanner) : List Char := s.cursor.text

/-- The column of the cursor. -/
def column (s : Scanner) : Nat := s.cursor.mark.column

/-- Add a token. -/
def emit (s : Scanner) (t : Token) : Scanner := { s with tokens := s.tokens.push t }

/-- Go on at a cursor. -/
def goTo (s : Scanner) (c : Cursor) : Scanner := { s with cursor := c }

/-- Read some characters as one token. -/
def take (s : Scanner) (n : Nat) (t : Token) : Scanner := (s.goTo (s.cursor.skip n)).emit t

/-- Say whether a key may start here. -/
def allowKey (s : Scanner) (allowed : Bool) : Scanner := { s with keyAllowed := allowed }

/-! ## 1. Indentation -/

/-- End the block collections that are indented further than `column`. -/
def unrollFrom (column : Int) : Int → List Int → Array Token → Int × List Int × Array Token
  | indent, [], tokens => (indent, [], tokens)
  | indent, next :: rest, tokens =>
    if column < indent then unrollFrom column next rest (tokens.push .blockEnd)
    else (indent, next :: rest, tokens)

/-- End the block collections that are indented further than `column`. Inside brackets indentation
    does not count. -/
def unroll (s : Scanner) (column : Int) : Scanner :=
  if s.inFlow then s
  else
    let (indent, outer, tokens) := unrollFrom column s.indent s.outer s.tokens
    { s with indent := indent, outer := outer, tokens := tokens }

/-- Start a block collection at `column`, unless the one around is there already. Its token goes
    behind the first `n` ones. -/
def roll (s : Scanner) (column : Nat) (n : Nat) (t : Token) : Scanner :=
  if s.inFlow = false ∧ s.indent < column then
    { s with
      outer := s.indent :: s.outer
      indent := column
      tokens := s.tokens.insertIdxIfInBounds n t }
  else s

/-! ## 2. Places of keys -/

/-- How many bytes may lie between the start of a key and the colon after it. -/
def maxKeySize : Nat := 1024

/-- A place cannot be a key any more: a key and its colon stand on one line, not too far apart. -/
def isStale (m : Mark) (k : KeyPlace) : Bool :=
  k.mark.line < m.line || k.mark.offset + maxKeySize < m.offset

/-- Forget the places that cannot be keys any more. One of them may have had to be a key. -/
def dropStale (s : Scanner) : Option Scanner :=
  let stale (k : KeyPlace) : Bool := isStale s.cursor.mark k
  if s.places.any (fun p => p.any fun k => stale k && k.required) then none
  else some { s with places := s.places.map fun p => p.filter (!stale ·) }

/-- Forget the innermost place, unless it has to be a key. -/
def dropPlace (s : Scanner) : Option Scanner :=
  match s.places with
  | [] => none
  | some k :: rest => if k.required then none else some { s with places := none :: rest }
  | none :: _ => some s

/-- Keep the cursor in mind as the place of a key, if one may start here. -/
def savePlace (s : Scanner) : Option Scanner :=
  if s.keyAllowed then do
    let required := !s.inFlow && s.indent = s.column
    let s ← s.dropPlace
    return { s with places := some ⟨s.tokens.size, s.cursor.mark, required⟩ :: s.places.drop 1 }
  else some s

/-! ## 3. Blanks and comments -/

/-- Skip blanks and a comment. A tab does not count as a blank where a key may start. A byte order mark
    may start a line. -/
def skipBlanks (keyAllowed inFlow : Bool) (c : Cursor) : Cursor :=
  let c := if c.mark.column = 0 && c.text.head? = some '\ufeff' then c.skip 1 else c
  (c.skipWhile fun x => x = ' ' || ((inFlow || !keyAllowed) && x = '\t')).skipComment

theorem length_skipBlanks_le (keyAllowed inFlow : Bool) (c : Cursor) :
    (skipBlanks keyAllowed inFlow c).text.length ≤ c.text.length := by
  refine Nat.le_trans (Cursor.length_skipComment_le _) (Nat.le_trans (Cursor.length_skipWhile_le _ _) ?_)
  split
  · exact Cursor.length_skip_le 1 c
  · exact Nat.le_refl _

/-- Skip blanks, comments and line breaks. Outside of brackets a key may start after a line break. -/
def skipGap (keyAllowed inFlow : Bool) (c : Cursor) : Cursor × Bool :=
  match _h : skipBlanks keyAllowed inFlow c with
  | ⟨mark, []⟩ => (⟨mark, []⟩, keyAllowed)
  | ⟨mark, x :: rest⟩ =>
    if isBreak x then skipGap (keyAllowed || !inFlow) inFlow ⟨mark.after x, rest⟩
    else (⟨mark, x :: rest⟩, keyAllowed)
termination_by c.text.length
decreasing_by
  have := length_skipBlanks_le keyAllowed inFlow c
  rw [_h] at this
  simp only [List.length_cons] at this
  omega

/-- Go to the next token. -/
def toToken (s : Scanner) : Scanner :=
  let (c, allowed) := skipGap s.keyAllowed s.inFlow s.cursor
  { s with cursor := c, keyAllowed := allowed }

/-! ## 4. Tokens, one at a time -/

/-- End the blocks and the key at a directive or a marker of a document. -/
def closeDocument (s : Scanner) : Option Scanner :=
  ((s.unroll (-1)).allowKey false).dropPlace

/-- A directive. -/
def fetchDirective (s : Scanner) : Option Scanner := do
  let s ← s.closeDocument
  let (d, c) ← Property.directive s.cursor
  return (s.goTo c).emit (.directive d)

/-- A marker of a document. -/
def fetchMarker (s : Scanner) (t : Token) : Option Scanner := do
  let s ← s.closeDocument
  return s.take 3 t

/-- An opening bracket. -/
def fetchOpening (s : Scanner) (t : Token) : Option Scanner := do
  let s ← s.savePlace
  return { (s.allowKey true).take 1 t with places := none :: s.places }

/-- A closing bracket. -/
def fetchClosing (s : Scanner) (t : Token) : Option Scanner := do
  let s ← s.dropPlace
  let places := if s.inFlow then s.places.drop 1 else s.places
  return { (s.allowKey false).take 1 t with places := places }

/-- A comma. -/
def fetchComma (s : Scanner) : Option Scanner := do
  let s ← s.dropPlace
  return (s.allowKey true).take 1 .flowEntry

/-- Start a block collection at the cursor, if one may start there. -/
def rollHere (s : Scanner) (t : Token) : Option Scanner :=
  if s.inFlow then some s
  else if s.keyAllowed then some (s.roll s.column s.tokens.size t)
  else none

/-- A hyphen. -/
def fetchEntry (s : Scanner) : Option Scanner := do
  let s ← s.rollHere .blockSequenceStart
  let s ← s.dropPlace
  return (s.allowKey true).take 1 .blockEntry

/-- A question mark. -/
def fetchKey (s : Scanner) : Option Scanner := do
  let s ← s.rollHere .blockMappingStart
  let s ← s.dropPlace
  return (s.allowKey (!s.inFlow)).take 1 .key

/-- A colon. What was kept in mind before it is a key. -/
def fetchValue (s : Scanner) : Option Scanner :=
  match s.places with
  | some k :: rest =>
    let s := { s with places := none :: rest, tokens := s.tokens.insertIdxIfInBounds k.tokens .key }
    let s := s.roll k.mark.column k.tokens .blockMappingStart
    some ((s.allowKey false).take 1 .value)
  | _ => do
    let s ← s.rollHere .blockMappingStart
    return (s.allowKey (!s.inFlow)).take 1 .value

/-- An anchor or an alias. -/
def fetchAnchor (s : Scanner) (t : String → Token) : Option Scanner := do
  let s ← s.savePlace
  let (name, c) ← Property.anchor (s.cursor.skip 1)
  return ((s.allowKey false).goTo c).emit (t name)

/-- A tag. -/
def fetchTag (s : Scanner) : Option Scanner := do
  let s ← s.savePlace
  let (t, c) ← Property.tag s.inFlow s.cursor
  return ((s.allowKey false).goTo c).emit (.tag t)

/-- A block scalar. -/
def fetchBlock (s : Scanner) (folded : Bool) : Option Scanner := do
  let s ← s.dropPlace
  let scan ← Block.read folded s.indent (s.cursor.skip 1)
  return ((s.allowKey true).goTo scan.cursor).emit (.scalar scan.text false)

/-- A quoted scalar. -/
def fetchQuoted (s : Scanner) (read : Mark → List Char → Option Quoted.Scan) : Option Scanner := do
  let s ← s.savePlace
  let c := s.cursor.skip 1
  let scan ← read c.mark c.text
  return ((s.allowKey false).goTo scan.cursor).emit (.scalar scan.text false)

/-- A plain scalar. After a line break a key may start. -/
def fetchPlain (s : Scanner) : Option Scanner := do
  let s ← s.savePlace
  let scan ← Plain.read s.inFlow (s.indent + 1) true Folded.start s.cursor.mark s.text
  return ((s.allowKey scan.broken).goTo scan.cursor).emit (.scalar scan.text true)

/-- The signs that no plain scalar starts with. Three of them may start one if no gap follows. -/
def indicators : List Char :=
  ['-', '?', ':', ',', '[', ']', '{', '}', '#', '&', '*', '!', '|', '>', '\'', '\x22', '%', '@',
    '\x60']

/-- A plain scalar starts with `c`, before `rest`. -/
def startsPlain (inFlow : Bool) (c : Char) (rest : List Char) : Bool :=
  (!isBlank c && !isBreak c && !indicators.contains c)
    || (c = '-' && !(rest.head?.any isBlank))
    || (!inFlow && (c = '?' || c = ':') && !startsGap rest)

/-- Read the token that starts with `c`. -/
def fetchAt (s : Scanner) (c : Char) (rest : List Char) : Option Scanner :=
  if s.column = 0 && c = '%' then s.fetchDirective
  else if s.column = 0 && startsDocument (c :: rest) then s.fetchMarker .documentStart
  else if s.column = 0 && endsDocument (c :: rest) then s.fetchMarker .documentEnd
  else if c = '[' then s.fetchOpening .flowSequenceStart
  else if c = '{' then s.fetchOpening .flowMappingStart
  else if c = ']' then s.fetchClosing .flowSequenceEnd
  else if c = '}' then s.fetchClosing .flowMappingEnd
  else if c = ',' then s.fetchComma
  else if c = '-' && startsGap rest then s.fetchEntry
  else if c = '?' && (s.inFlow || startsGap rest) then s.fetchKey
  else if c = ':' && (s.inFlow || startsGap rest) then s.fetchValue
  else if c = '*' then s.fetchAnchor .alias
  else if c = '&' then s.fetchAnchor .anchor
  else if c = '!' then s.fetchTag
  else if c = '|' && !s.inFlow then s.fetchBlock false
  else if c = '>' && !s.inFlow then s.fetchBlock true
  else if c = '\'' then s.fetchQuoted (Quoted.readSingle Folded.start)
  else if c = '\x22' then s.fetchQuoted (Quoted.readDouble .plain Folded.start)
  else if startsPlain s.inFlow c rest then s.fetchPlain
  else none

/-- End the document at the end of the text. -/
def finish (s : Scanner) : Option Scanner := (s.unroll (-1)).dropPlace

/-- Read all tokens. Each takes one character at least, so the length of the text bounds them. -/
def run : Nat → Scanner → Option Scanner
  | 0, _ => none
  | fuel + 1, s => do
    let s ← s.toToken.dropStale
    let s := s.unroll s.column
    match s.text with
    | [] => s.finish
    | c :: rest => run fuel (← s.fetchAt c rest)

end Scanner

/-- The tokens of a document. -/
def Token.ofText? (text : List Char) : Option (List Token) :=
  if text.all isAllowed then
    let unified := unifyBreaks text
    (Scanner.run (unified.length + 1) (Scanner.start unified)).map (·.tokens.toList)
  else none

end RouteTree.Yaml
