/-!
# The text of a YAML document

Before anything is read, the text of a document is checked for characters that no document holds, and
its line breaks are unified: every form of a line feed becomes one, and the two separators of lines
and paragraphs stay themselves. After that each character is one step, and a `Mark` says where a
reader stands.
-/

namespace RouteTree.Yaml

/-! ## 1. Characters -/

/-- A character that a document may hold. -/
def isAllowed (c : Char) : Bool :=
  let n := c.toNat
  n = 0x09 || n = 0x0A || n = 0x0D || (0x20 ≤ n && n ≤ 0x7E) || n = 0x85
    || (0xA0 ≤ n && n ≤ 0xFFFD) || 0x10000 ≤ n

/-- One form for all line feeds: carriage returns, alone or before a line feed, and next lines. -/
def unifyBreaks : List Char → List Char
  | [] => []
  | '\r' :: '\n' :: rest => '\n' :: unifyBreaks rest
  | '\r' :: rest => '\n' :: unifyBreaks rest
  | '\u0085' :: rest => '\n' :: unifyBreaks rest
  | c :: rest => c :: unifyBreaks rest

/-- A space or a tab. -/
def isBlank (c : Char) : Bool := c = ' ' || c = '\t'

/-- A line break. -/
def isBreak (c : Char) : Bool := c = '\n' || c = '\u2028' || c = '\u2029'

/-- A character of a name: a letter, a digit, an underscore or a hyphen. -/
def isNameChar (c : Char) : Bool := c.isAlphanum || c = '_' || c = '-'

/-- The brackets and the comma of collections written on one line. -/
def isFlowMark (c : Char) : Bool := c = ',' || c = '[' || c = ']' || c = '{' || c = '}'

/-! ## 2. What a text starts with -/

/-- A text is at its end or starts with a blank or a line break. -/
def startsGap : List Char → Bool
  | [] => true
  | c :: _ => isBlank c || isBreak c

/-- A text is at its end or starts with a line break. -/
def startsBreak : List Char → Bool
  | [] => true
  | c :: _ => isBreak c

/-- A text starts with the marker of a document start, `---` and a gap. -/
def startsDocument : List Char → Bool
  | '-' :: '-' :: '-' :: rest => startsGap rest
  | _ => false

/-- A text starts with the marker of a document end, `...` and a gap. -/
def endsDocument : List Char → Bool
  | '.' :: '.' :: '.' :: rest => startsGap rest
  | _ => false

/-! ## 3. Marks -/

/-- A place in a text: how many bytes come before it, in which line it is, and how many characters of
    that line come before it. -/
structure Mark where
  offset : Nat
  line : Nat
  column : Nat
  deriving DecidableEq, Repr

namespace Mark

/-- The start of a text. -/
def start : Mark := ⟨0, 0, 0⟩

/-- The place after a character. -/
def after (m : Mark) (c : Char) : Mark :=
  if isBreak c then ⟨m.offset + c.utf8Size, m.line + 1, 0⟩
  else ⟨m.offset + c.utf8Size, m.line, m.column + 1⟩

/-- The place after some characters. -/
def afterAll (m : Mark) (cs : List Char) : Mark := cs.foldl after m

/-- A marker of a document starts here: markers stand at the start of a line. -/
def atMarker (m : Mark) (text : List Char) : Bool :=
  m.column = 0 && (startsDocument text || endsDocument text)

end Mark

/-- A place and the text that comes after it. -/
structure Cursor where
  mark : Mark
  text : List Char

namespace Cursor

/-- The cursor after the first `n` characters. -/
def skip (n : Nat) (c : Cursor) : Cursor :=
  ⟨c.mark.afterAll (c.text.take n), c.text.drop n⟩

/-- The characters that fulfil `p`, up to the first that does not. -/
def leading (p : Char → Bool) (c : Cursor) : List Char := c.text.takeWhile p

/-- The cursor after the characters that fulfil `p`. -/
def skipWhile (p : Char → Bool) (c : Cursor) : Cursor :=
  ⟨c.mark.afterAll (c.text.takeWhile p), c.text.dropWhile p⟩

/-- The cursor after a comment, if there is one. -/
def skipComment (c : Cursor) : Cursor :=
  if c.text.head? = some '#' then c.skipWhile (!isBreak ·) else c

/-- The cursor at the end of the line: only blanks and a comment may come before that. -/
def endOfLine? (c : Cursor) : Option Cursor :=
  let c := (c.skipWhile isBlank).skipComment
  if startsBreak c.text then some c else none

theorem length_skip_le (n : Nat) (c : Cursor) : (c.skip n).text.length ≤ c.text.length := by
  simp [skip]

theorem length_skipWhile_le (p : Char → Bool) (c : Cursor) :
    (c.skipWhile p).text.length ≤ c.text.length :=
  (List.dropWhile_suffix p).length_le

theorem length_skipComment_le (c : Cursor) : c.skipComment.text.length ≤ c.text.length := by
  unfold skipComment
  split
  · exact length_skipWhile_le _ c
  · exact Nat.le_refl _

end Cursor

end RouteTree.Yaml
