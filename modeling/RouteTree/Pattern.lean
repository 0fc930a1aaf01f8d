import RouteTree.Error
import RouteTree.Segment

/-!
# Patterns

A pattern is a sequence of groups. `/text` is a literal component, `/{name}` a template for one
component, `{/name}` one that may be absent, `{+name}` or `/{+name}` one for all that is left. A
template may pin its value: `{name:value}`. `Pattern.parse` reads a pattern group by group and stops
at the first group that is none.
-/

namespace RouteTree.Pattern

/-- The operators of the template notation that are known here but have no meaning. -/
def unsupportedOperators : List Char := ['#', '.', ';', '?', '&', '=', ',', '!', '@', '|']

/-! ## 1. Templates -/

/-- The modifier at the head of a template's body, and the body after it. The optional sign counts
    only where the slash is implied, that is, where none was written before the brace. -/
def modifierOf (impliedSlash : Bool) :
    List Char → Except SyntaxFault (Option Modifier × List Char)
  | [] => .ok (none, [])
  | c :: rest =>
    if c = '+' then .ok (some .catchAll, rest)
    else if c = '/' ∧ impliedSlash then .ok (some .optional, rest)
    else if unsupportedOperators.contains c then .error (.unsupportedOperator c)
    else .ok (none, c :: rest)

/-- The name and the pinned value of `name` or `name:value`. -/
def nameAndValue (declaration : List Char) : List Char × Option (List Char) :=
  match declaration.dropWhile (· ≠ ':') with
  | [] => (declaration, none)
  | _ :: value => (declaration.takeWhile (· ≠ ':'), some value)

/-- A character that a parameter name may not hold. -/
def isBadInName (c : Char) : Bool := c = '/' || c = '{'

/-- The template with this body, the text between its braces. -/
def template (impliedSlash : Bool) (body : List Char) : Except SyntaxFault Template :=
  match modifierOf impliedSlash body with
  | .error fault => .error fault
  | .ok (modifier, declaration) =>
    if impliedSlash ∧ modifier = none then .error (.slashRequired (String.ofList body))
    else
      let (name, fixed) := nameAndValue declaration
      if name = [] then .error .emptyName
      else match name.find? isBadInName with
        | some c => .error (.nameCharacter c (String.ofList name))
        | none =>
          if fixed = some [] then .error (.emptyFixedValue (String.ofList name))
          else .ok ⟨String.ofList name, modifier, fixed.map String.ofList⟩

/-- The template whose body starts here, and the text after its closing brace. -/
def templateGroup (impliedSlash : Bool) (text : List Char) :
    Except SyntaxFault (Template × List Char) :=
  match text.dropWhile (· ≠ '}') with
  | [] => .error .unclosedBrace
  | _ :: rest =>
    match template impliedSlash (text.takeWhile (· ≠ '}')) with
    | .error fault => .error fault
    | .ok t => .ok (t, rest)

/-! ## 2. Groups -/

/-- A character that ends a literal component. -/
def endsLiteral (c : Char) : Bool := c = '/' || c = '{'

/-- The first group of a text that is not empty, and the text after it. After a slash, a brace opens
    a template unless another slash follows it: `/{/name}` is an empty component and an optional
    template. -/
def group : List Char → Except SyntaxFault (Segment × List Char)
  | [] => .error (.groupExpected "")
  | '/' :: '{' :: '/' :: rest => .ok (.literal "", '{' :: '/' :: rest)
  | '/' :: '{' :: rest =>
    match templateGroup false rest with
    | .error fault => .error fault
    | .ok (t, tail) => .ok (.param t, tail)
  | '/' :: rest =>
    .ok (.literal (String.ofList (Text.Percent.decodeChars (rest.takeWhile (!endsLiteral ·)))),
      rest.dropWhile (!endsLiteral ·))
  | '{' :: rest =>
    match templateGroup true rest with
    | .error fault => .error fault
    | .ok (t, tail) => .ok (.param t, tail)
  | rest => .error (.groupExpected (String.ofList rest))

/-- A template group takes at least its closing brace. -/
theorem length_of_templateGroup {impliedSlash : Bool} {text rest : List Char} {t : Template}
    (h : templateGroup impliedSlash text = .ok (t, rest)) : rest.length < text.length := by
  unfold templateGroup at h
  split at h
  · simp at h
  · rename_i d tail hd
    split at h
    · simp at h
    · simp only [Except.ok.injEq, Prod.mk.injEq] at h
      have := (List.dropWhile_suffix (l := text) (· ≠ '}')).length_le
      rw [hd] at this
      simp only [List.length_cons] at this
      rw [← h.2]
      omega

/-- A group takes at least one character. -/
theorem length_of_group {text rest : List Char} {s : Segment}
    (h : group text = .ok (s, rest)) : rest.length < text.length := by
  unfold group at h
  split at h
  · simp at h
  · simp only [Except.ok.injEq, Prod.mk.injEq] at h
    rw [← h.2]
    simp
  · split at h
    · simp at h
    · rename_i ht
      simp only [Except.ok.injEq, Prod.mk.injEq] at h
      have := length_of_templateGroup ht
      rw [← h.2]
      simp only [List.length_cons]
      omega
  · rename_i tail _ _
    simp only [Except.ok.injEq, Prod.mk.injEq] at h
    have := (List.dropWhile_suffix (l := tail) (!endsLiteral ·)).length_le
    rw [← h.2]
    simp only [List.length_cons]
    omega
  · split at h
    · simp at h
    · rename_i ht
      simp only [Except.ok.injEq, Prod.mk.injEq] at h
      have := length_of_templateGroup ht
      rw [← h.2]
      simp only [List.length_cons]
      omega
  · simp at h

/-! ## 3. Whole patterns -/

/-- The segments of a pattern, or what is wrong with its first bad group. -/
def parseChars (text : List Char) : Except SyntaxFault (List Segment) :=
  match text with
  | [] => .ok []
  | c :: cs =>
    match _h : group (c :: cs) with
    | .error fault => .error fault
    | .ok (segment, rest) =>
      match parseChars rest with
      | .error fault => .error fault
      | .ok more => .ok (segment :: more)
termination_by text.length
decreasing_by exact length_of_group _h

/-- The segments of a pattern. Literal components are percent-decoded. -/
def parse (pattern : String) : Except RouteError (List Segment) :=
  match parseChars pattern.toList with
  | .error fault => .error (.malformedPattern pattern fault)
  | .ok segments => .ok segments

end RouteTree.Pattern
