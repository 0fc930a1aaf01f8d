import RouteTree.Yaml.Text

/-!
# Folded text

A plain or a quoted scalar may go over several lines. What stands between two of its visible
characters is folded: blanks inside a line are kept, blanks around a line break are not, one line feed
becomes a space, and of several the first is dropped.
-/

namespace RouteTree.Yaml

/-- Folded text that is being read. -/
structure Folded where
  /-- The text up to the last visible character. -/
  text : String
  /-- The blanks since then, while no line break came. -/
  blanks : String
  /-- The line breaks since then, the last one first. -/
  breaks : List Char
  /-- The line break before these was escaped and joins two lines without a space. -/
  joined : Bool

namespace Folded

/-- The start of a text. -/
def start : Folded := ⟨"", "", [], false⟩

/-- What line breaks become. -/
def foldBreaks : List Char → List Char
  | ['\n'] => [' ']
  | '\n' :: more => more
  | breaks => breaks

/-- A line break, written or escaped, came after the last visible character. -/
def isBroken (f : Folded) : Bool := f.joined || !f.breaks.isEmpty

/-- What stands between the last visible character and the next one. -/
def gap (f : Folded) : String :=
  if f.joined then String.ofList f.breaks.reverse
  else if f.breaks.isEmpty then f.blanks
  else String.ofList (foldBreaks f.breaks.reverse)

/-- The text with the gap after it. -/
def closed (f : Folded) : String := f.text ++ f.gap

/-- Read a visible character. -/
def push (f : Folded) (c : Char) : Folded := ⟨f.closed.push c, "", [], false⟩

/-- Read a blank. -/
def pushBlank (f : Folded) (c : Char) : Folded :=
  if f.isBroken then f else { f with blanks := f.blanks.push c }

/-- Read a line break. -/
def pushBreak (f : Folded) (c : Char) : Folded := { f with breaks := c :: f.breaks }

/-- Read an escaped line break. -/
def joinLines (f : Folded) : Folded := ⟨f.closed, "", [], true⟩

end Folded

end RouteTree.Yaml
