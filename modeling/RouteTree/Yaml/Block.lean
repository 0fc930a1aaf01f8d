import RouteTree.Yaml.Text

/-!
# Block scalars

A literal (`|`) or folded (`>`) text below its header. The header may fix the indentation of the text
and what becomes of the line breaks at its end. A folded text joins two lines that are not indented
further by a space.
-/

namespace RouteTree.Yaml.Block

/-- What becomes of the line breaks at the end. -/
inductive Chomping where
  /-- All of them are dropped. -/
  | strip
  /-- The first is kept. -/
  | clip
  /-- All of them are kept. -/
  | keep
  deriving DecidableEq, Repr

/-- What the header fixes: the chomping, and the indentation if it is not zero. -/
structure Header where
  chomping : Chomping
  indent : Nat
  deriving DecidableEq, Repr

/-- The chomping sign at the start of a text, and the text after it. -/
def chomping? : List Char → Option (Chomping × List Char)
  | '+' :: rest => some (.keep, rest)
  | '-' :: rest => some (.strip, rest)
  | _ => none

/-- The indentation digit at the start of a text, and the text after it. -/
def indent? : List Char → Option (Nat × List Char)
  | c :: rest => if c.isDigit then some (c.toNat - 48, rest) else none
  | [] => none

/-- A header, and how many characters it takes. The two signs may come in either order, and the digit
    may not be zero. -/
def header? (text : List Char) : Option (Header × Nat) :=
  match chomping? text with
  | some (chomping, rest) =>
    match indent? rest with
    | some (0, _) => none
    | some (n, _) => some (⟨chomping, n⟩, 2)
    | none => some (⟨chomping, 0⟩, 1)
  | none =>
    match indent? text with
    | some (0, _) => none
    | some (n, rest) =>
      match chomping? rest with
      | some (chomping, _) => some (⟨chomping, n⟩, 2)
      | none => some (⟨.clip, n⟩, 1)
    | none => some (⟨.clip, 0⟩, 0)

/-- A block scalar that is being read. -/
structure Lines where
  /-- The lines so far, without the break after the last one. -/
  text : String
  /-- The break after the last line. -/
  leading : Option Char
  /-- The breaks of empty lines since then, the last one first. -/
  trailing : List Char
  /-- The last line starts with a blank. -/
  indented : Bool
  /-- The indentation; zero until a line decides it. -/
  indent : Nat
  /-- The deepest column seen while nothing has decided it. -/
  deepest : Nat

namespace Lines

/-- The start of a text whose header fixes `indent`. -/
def start (indent : Nat) : Lines := ⟨"", none, [], false, indent, 0⟩

/-- The break between the last line and the next one, which starts with `first`. -/
def joint (l : Lines) (folded : Bool) (first : Char) : String :=
  if folded && l.leading = some '\n' && !l.indented && !isBlank first then
    if l.trailing.isEmpty then " " else ""
  else String.ofList l.leading.toList

/-- Add a line. -/
def add (l : Lines) (folded : Bool) (first : Char) (line : List Char) : Lines :=
  { l with
    text := l.text ++ l.joint folded first ++ String.ofList l.trailing.reverse ++ String.ofList line
    leading := none
    trailing := []
    indented := isBlank first }

/-- The whole text. -/
def finish (l : Lines) (chomping : Chomping) : String :=
  match chomping with
  | .strip => l.text
  | .clip => l.text ++ String.ofList l.leading.toList
  | .keep => l.text ++ String.ofList l.leading.toList ++ String.ofList l.trailing.reverse

end Lines

theorem length_drop_lt {n : Nat} {text rest : List Char} {c : Char}
    (h : text.drop n = c :: rest) : rest.length < text.length := by
  have := congrArg List.length h
  simp only [List.length_drop, List.length_cons] at this
  omega

theorem length_dropWhile_lt {p : Char → Bool} {text rest : List Char} {c : Char}
    (h : text.dropWhile p = c :: rest) : rest.length < text.length := by
  have hle := (List.dropWhile_suffix (l := text) p).length_le
  rw [h] at hle
  simp only [List.length_cons] at hle
  omega

/-- Read the lines of a block scalar from the start of a line. `least` is the least indentation of a
    text whose header fixes none. A tab may not indent a line. -/
def readLines (folded : Bool) (least : Nat) (l : Lines) (m : Mark) (text : List Char) :
    Option (Lines × Cursor) :=
  let spaces := (text.takeWhile (· = ' ')).length
  let eaten := if l.indent = 0 then spaces else min spaces l.indent
  let here := m.afterAll (text.take eaten)
  let deepest := max l.deepest eaten
  match _h : text.drop eaten with
  | [] => some (l, ⟨here, []⟩)
  | c :: rest =>
    if (l.indent = 0 || eaten < l.indent) && c = '\t' then none
    else if isBreak c then
      readLines folded least { l with trailing := c :: l.trailing, deepest := deepest }
        (here.after c) rest
    else
      let indent := if l.indent = 0 then max deepest least else l.indent
      if eaten ≠ indent then some (l, ⟨here, c :: rest⟩)
      else
        let line := c :: rest.takeWhile (!isBreak ·)
        let l := { l.add folded c line with indent := indent }
        match _h' : rest.dropWhile (!isBreak ·) with
        | [] => some (l, ⟨here.afterAll line, []⟩)
        | b :: below =>
          readLines folded least { l with leading := some b } ((here.afterAll line).after b) below
termination_by text.length
decreasing_by
  · exact length_drop_lt _h
  · exact Nat.lt_trans (length_dropWhile_lt _h') (length_drop_lt _h)

/-- A block scalar as read. -/
structure Scan where
  text : String
  cursor : Cursor

/-- Read a block scalar after its sign. `indent` is the column of the collection around it, `-1` if
    there is none. -/
def read (folded : Bool) (indent : Int) (c : Cursor) : Option Scan := do
  let (header, length) ← header? c.text
  let line ← (c.skip length).endOfLine?
  let body := line.skip 1
  let fixed := if header.indent = 0 then 0 else (max indent 0).toNat + header.indent
  let least := max 1 (indent + 1).toNat
  let (lines, cursor) ← readLines folded least (Lines.start fixed) body.mark body.text
  return ⟨lines.finish header.chomping, cursor⟩

end RouteTree.Yaml.Block
