import RouteTree.Text.Percent
import RouteTree.Yaml.Text

/-!
# Names, tags and directives

A node may carry an anchor or be the alias of one, and it may carry a tag. A tag is written in full, or
with a handle that a directive gives a meaning to. The text of a tag is bytes: its escapes need not
make up a text.
-/

namespace RouteTree.Yaml

namespace Property

/-! ## 1. Anchors -/

/-- A character that may follow the name of an anchor without a gap. -/
def followsAnchor (c : Char) : Bool :=
  c = '?' || c = ':' || c = ',' || c = ']' || c = '}' || c = '%' || c = '@' || c = '\x60'

/-- The name of an anchor or an alias, after its sign. -/
def anchor (c : Cursor) : Option (String × Cursor) :=
  let name := c.leading isNameChar
  let rest := c.skipWhile isNameChar
  if name = [] then none
  else if startsGap rest.text || (rest.text.head?.any followsAnchor) then
    some (String.ofList name, rest)
  else none

/-! ## 2. Tags -/

/-- The handle and the suffix of a tag. A tag written in full has the empty handle. -/
structure Tag where
  handle : String
  suffix : List UInt8
  deriving DecidableEq, Repr

/-- A character of a tag, besides the signs that are only allowed in one written in full. -/
def isUriChar (c : Char) : Bool :=
  isNameChar c || [';', '/', '?', ':', '@', '&', '=', '+', '$', '.', '!', '~', '*', '\'', '(',
    ')'].contains c

/-- A character of a tag, or of one written in full. -/
def isUriCharIn (full : Bool) (c : Char) : Bool :=
  isUriChar c || (full && (c = ',' || c = '[' || c = ']'))

/-- How many bytes the character takes whose first byte this is. -/
def width? (b : Nat) : Option Nat :=
  if b < 0x80 then some 1
  else if 0xC0 ≤ b ∧ b < 0xE0 then some 2
  else if 0xE0 ≤ b ∧ b < 0xF0 then some 3
  else if 0xF0 ≤ b ∧ b < 0xF8 then some 4
  else none

/-- The bytes of a tag, and how many characters they are written with. `owed` is the number of
    bytes that the character begun by the last escape still lacks; they have to be escapes too. -/
def uriBytes (full : Bool) (owed : Nat) : List Char → Option (List UInt8 × Nat)
  | '%' :: hi :: lo :: rest => do
    let h ← Text.Percent.hexValue? hi
    let l ← Text.Percent.hexValue? lo
    let byte := h * 16 + l
    let owed' ←
      if owed = 0 then (width? byte).map (· - 1)
      else if 0x80 ≤ byte ∧ byte < 0xC0 then some (owed - 1)
      else none
    let (bytes, length) ← uriBytes full owed' rest
    return (UInt8.ofNat byte :: bytes, length + 3)
  | c :: rest =>
    if c = '%' ∨ owed ≠ 0 then none
    else if isUriCharIn full c then do
      let (bytes, length) ← uriBytes full 0 rest
      return (UInt8.ofNat c.toNat :: bytes, length + 1)
    else some ([], 0)
  | [] => if owed = 0 then some ([], 0) else none

/-- Bytes end at the first zero byte. -/
def cut (bytes : List UInt8) : List UInt8 := bytes.takeWhile (· ≠ 0)

/-- The text of a tag. It may be empty only if `head`, which was read before, is not. -/
def uri (full : Bool) (head : List Char) (c : Cursor) : Option (List UInt8 × Cursor) := do
  let (bytes, length) ← uriBytes full 0 c.text
  if head = [] ∧ length = 0 then none
  else return (cut (Text.Utf8.encode (head.drop 1) ++ bytes), c.skip length)

/-- A handle: an exclamation mark, a name, and a second exclamation mark unless that is missing. -/
def handle (c : Cursor) : Option (List Char × Cursor) :=
  match c.text with
  | '!' :: rest =>
    let name := rest.takeWhile isNameChar
    let closing := if (rest.dropWhile isNameChar).head? = some '!' then ['!'] else []
    let whole := '!' :: name ++ closing
    some (whole, c.skip whole.length)
  | _ => none

/-- A handle is closed by a second exclamation mark. -/
def isClosed (handle : List Char) : Bool :=
  2 ≤ handle.length && handle.getLast? = some '!'

/-- A tag without what comes after it. -/
def bareTag (c : Cursor) : Option (Tag × Cursor) :=
  match c.text with
  | '!' :: '<' :: _ => do
    let (suffix, rest) ← uri true [] (c.skip 2)
    if rest.text.head? = some '>' then return (⟨"", suffix⟩, rest.skip 1) else none
  | _ => do
    let (h, rest) ← handle c
    if isClosed h then
      let (suffix, rest) ← uri false [] rest
      return (⟨String.ofList h, suffix⟩, rest)
    else
      let (suffix, rest) ← uri false h rest
      if suffix = [] then return (⟨"", [33]⟩, rest)
      else return (⟨"!", suffix⟩, rest)

/-- A tag. A gap has to follow it, or a comma inside brackets. -/
def tag (inFlow : Bool) (c : Cursor) : Option (Tag × Cursor) := do
  let (t, rest) ← bareTag c
  if startsGap rest.text || (inFlow && rest.text.head? = some ',') then return (t, rest) else none

/-! ## 3. Directives -/

/-- What a directive says. -/
inductive Directive where
  /-- The version of the format. -/
  | version (major minor : Nat)
  /-- The meaning of a handle. -/
  | tag (handle : String) (uri : List UInt8)
  deriving DecidableEq, Repr

/-- A number of at most nine digits. -/
def number (c : Cursor) : Option (Nat × Cursor) :=
  let digits := c.leading Char.isDigit
  if digits = [] ∨ 9 < digits.length then none
  else some (digits.foldl (fun n d => n * 10 + (d.toNat - 48)) 0, c.skipWhile Char.isDigit)

/-- What a directive says, after its name. -/
def directiveValue (name : List Char) (c : Cursor) : Option (Directive × Cursor) :=
  let c := c.skipWhile isBlank
  if name = ['Y', 'A', 'M', 'L'] then do
    let (major, rest) ← number c
    if rest.text.head? ≠ some '.' then none
    else
      let (minor, rest) ← number (rest.skip 1)
      return (.version major minor, rest)
  else if name = ['T', 'A', 'G'] then do
    let (h, rest) ← handle c
    if (h ≠ ['!'] ∧ isClosed h = false) ∨ (rest.text.head?.all (!isBlank ·)) then none
    else
      let (bytes, rest) ← uri true [] (rest.skipWhile isBlank)
      if startsGap rest.text then return (.tag (String.ofList h) bytes, rest) else none
  else none

/-- A directive, from its sign to the end of its line. -/
def directive (c : Cursor) : Option (Directive × Cursor) := do
  let c := c.skip 1
  let name := c.leading isNameChar
  let rest := c.skipWhile isNameChar
  if startsGap rest.text then
    let (d, rest) ← directiveValue name rest
    let line ← rest.endOfLine?
    return (d, line.skip 1)
  else none

end Property

end RouteTree.Yaml
