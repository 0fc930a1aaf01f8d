import RouteTree.Yaml.Folding

/-!
# Plain scalars

A scalar without quotes. It ends before a colon with a gap after it, before a comment, before a marker
of a document, before a line that is not indented enough, and inside brackets also before a bracket or
a comma.
-/

namespace RouteTree.Yaml.Plain

/-- A plain scalar as read. -/
structure Scan where
  text : String
  /-- A line break came after its last character. -/
  broken : Bool
  cursor : Cursor

/-- A character that may not follow a colon inside brackets. -/
def isBadAfterColon : List Char → Bool
  | [] => false
  | c :: _ => c = '?' || (isFlowMark c)

/-- The scalar ends before this text, in the midst of a line. -/
def stops (inFlow : Bool) : List Char → Bool
  | [] => true
  | c :: rest => (c = ':' && startsGap rest) || (inFlow && isFlowMark c)

/-- The scalar ends before this text, after a gap. -/
def stopsAfterGap (inFlow : Bool) (indent : Int) (m : Mark) (text : List Char) : Bool :=
  (!inFlow && m.column < indent) || m.atMarker text || text.head? = some '#'

/-- Read a plain scalar. `indent` is the least column its lines may start at, and `inWord` says that
    the last character was a visible one. A tab may not indent a line. -/
def read (inFlow : Bool) (indent : Int) (inWord : Bool) (f : Folded) (m : Mark) :
    List Char → Option Scan
  | [] => some ⟨f.text, f.isBroken, ⟨m, []⟩⟩
  | c :: rest =>
    if isBlank c then
      if f.isBroken && m.column < indent && c = '\t' then none
      else read inFlow indent false (f.pushBlank c) (m.after c) rest
    else if isBreak c then
      read inFlow indent false (f.pushBreak c) (m.after c) rest
    else if !inWord && stopsAfterGap inFlow indent m (c :: rest) then
      some ⟨f.text, f.isBroken, ⟨m, c :: rest⟩⟩
    else if inFlow && c = ':' && isBadAfterColon rest then none
    else if stops inFlow (c :: rest) then some ⟨f.text, f.isBroken, ⟨m, c :: rest⟩⟩
    else read inFlow indent true (f.push c) (m.after c) rest

end RouteTree.Yaml.Plain
