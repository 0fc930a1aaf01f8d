import Mathlib.Data.List.Chain
import Mathlib.Data.List.TakeWhile
import RouteTree.Proofs.Pattern

/-!
# The grammar of patterns

A pattern is what groups of three forms make when they are put together: a slash and a text, a slash
and a template in braces, and a template in braces with the slash inside or implied. This file fixes

* `Declaration` and `Group`, the grammar, and `textOf`, what some groups make together;
* `PrefersTemplates`, the rule by which a text that can be taken apart in two ways is taken apart;
* `parseChars_textOf`: every text made of groups is a pattern, and `settle` says which groups are read;
* `parse_grammar`: nothing else is a pattern.

Two readings of a text differ in one thing only: an empty literal in front of `{+name}` is written like
the template `/{+name}`. `Fuse` is that meeting, and `parseChars_textOf_iff` says that groups are read
as they were put together exactly if no two of them meet like that.
-/

namespace RouteTree.Pattern

/-! ## 1. Groups -/

/-- A name, and a value behind a colon if there is one. -/
def declared (name : List Char) : Option (List Char) → List Char
  | none => name
  | some value => name ++ ':' :: value

theorem mem_declared_of_mem_name {c : Char} {name : List Char} {value : Option (List Char)}
    (h : c ∈ name) : c ∈ declared name value := by
  cases value with
  | none => exact h
  | some v => exact List.mem_append_left _ h

/-- The signs that a template may not start with, unless the first one is its operator. -/
def operators : List Char := ['+', '#', '.', ';', '?', '&', '=', ',', '!', '@', '|']

/-- The inside of a template behind its operator: `name` or `name:value`. -/
structure Declaration where
  name : String
  value : Option String
  name_ne_empty : name ≠ ""
  name_plain : ∀ c ∈ name.toList, c ≠ '/' ∧ c ≠ '{' ∧ c ≠ ':' ∧ c ≠ '}'
  value_ne_empty : value ≠ some ""
  value_plain : ∀ v, value = some v → '}' ∉ v.toList

namespace Declaration

/-- A declaration as it is written. -/
def text (d : Declaration) : List Char := declared d.name.toList (d.value.map String.toList)

/-- The name does not start with an operator, so it needs none in front of it. -/
def IsBare (d : Declaration) : Prop := ∀ c ∈ d.name.toList.head?, c ∉ operators

/-- The template with this inside. -/
def template (d : Declaration) (modifier : Option Modifier) : Template :=
  ⟨d.name, modifier, d.value⟩

end Declaration

/-- The groups that a pattern is made of. -/
inductive Group where
  /-- `/text`. -/
  | literal (text : List Char) (plain : ∀ c ∈ text, c ≠ '/' ∧ c ≠ '{')
  /-- `/{name}`, or `/{+name}` with the plus sign. -/
  | slashed (plus : Bool) (d : Declaration) (bare : plus = false → d.IsBare)
  /-- `{/name}` and `{+name}`. -/
  | implied (modifier : Modifier) (d : Declaration)

namespace Group

/-- A group as it is written. -/
def text : Group → List Char
  | literal text _ => '/' :: text
  | slashed false d _ => '/' :: '{' :: (d.text ++ ['}'])
  | slashed true d _ => '/' :: '{' :: '+' :: (d.text ++ ['}'])
  | implied modifier d => '{' :: modifier.symbol :: (d.text ++ ['}'])

/-- The segment a group stands for. Names and values are taken as they are written. -/
def segment : Group → Segment
  | literal text _ => .literal (String.ofList (Text.Percent.decodeChars text))
  | slashed false d _ => .param (d.template none)
  | slashed true d _ => .param (d.template (some .catchAll))
  | implied modifier d => .param (d.template (some modifier))

/-- The group is a template behind a slash. -/
def IsSlashed : Group → Prop
  | slashed _ _ _ => True
  | _ => False

end Group

/-- What some groups make when they are put together. -/
def textOf (gs : List Group) : List Char := gs.flatMap Group.text

@[simp] theorem textOf_nil : textOf [] = [] := rfl

@[simp] theorem textOf_cons (g : Group) (gs : List Group) : textOf (g :: gs) = g.text ++ textOf gs :=
  rfl

@[simp] theorem textOf_append (gs hs : List Group) : textOf (gs ++ hs) = textOf gs ++ textOf hs :=
  List.flatMap_append

/-- **The preference of the reader**: where a slash and a brace stand together, and no second slash
    follows, the two open a template. -/
def PrefersTemplates : List Group → Prop
  | [] => True
  | g :: gs =>
    (∀ c tail, textOf (g :: gs) = '/' :: '{' :: c :: tail → c ≠ '/' → g.IsSlashed) ∧
    PrefersTemplates gs

/-! ## 2. Cutting at the first sign -/

section
variable {sep : Char} {front : List Char}

theorem decide_ne_of_not_mem (h : sep ∉ front) : ∀ c ∈ front, decide (c ≠ sep) = true :=
  fun _ hc => decide_eq_true fun e => h (e ▸ hc)

theorem takeWhile_append_sign (h : sep ∉ front) (back : List Char) :
    (front ++ sep :: back).takeWhile (· ≠ sep) = front := by
  rw [List.takeWhile_append_of_pos (decide_ne_of_not_mem h)]
  simp

theorem dropWhile_append_sign (h : sep ∉ front) (back : List Char) :
    (front ++ sep :: back).dropWhile (· ≠ sep) = sep :: back := by
  rw [List.dropWhile_append_of_pos (decide_ne_of_not_mem h)]
  simp

theorem dropWhile_eq_nil_of_not_mem (h : sep ∉ front) : front.dropWhile (· ≠ sep) = [] :=
  List.dropWhile_eq_nil_iff.mpr (decide_ne_of_not_mem h)

theorem not_mem_takeWhile_sign (text : List Char) : sep ∉ text.takeWhile (· ≠ sep) := fun h => by
  have := List.mem_takeWhile_imp h
  simp at this

/-- A text that the sign occurs in is what stands in front of the sign, the sign, and the rest. -/
theorem eq_of_dropWhile_sign {text back : List Char} {c : Char}
    (h : text.dropWhile (· ≠ sep) = c :: back) :
    text = text.takeWhile (· ≠ sep) ++ sep :: back := by
  have hc : c = sep := by
    have := List.head?_dropWhile_not (· ≠ sep) text
    rw [h] at this
    simpa using this
  rw [hc] at h
  rw [← h, List.takeWhile_append_dropWhile]

end

/-! ## 3. Templates -/

namespace Declaration

variable (d : Declaration)

theorem brace_not_mem_name : '}' ∉ d.name.toList := fun h => (d.name_plain '}' h).2.2.2 rfl

theorem brace_not_mem_text : '}' ∉ d.text := by
  intro h
  rw [text] at h
  cases hv : d.value with
  | none =>
    rw [hv] at h
    exact d.brace_not_mem_name h
  | some v =>
    rw [hv] at h
    rcases List.mem_append.mp h with h | h
    · exact d.brace_not_mem_name h
    · rcases List.mem_cons.mp h with h | h
      · cases h
      · exact d.value_plain v hv h

theorem colon_not_mem_name : ':' ∉ d.name.toList := fun h => (d.name_plain ':' h).2.2.1 rfl

theorem toList_name_ne_nil : d.name.toList ≠ [] := fun h =>
  d.name_ne_empty (String.toList_inj.mp h)

/-- A declaration starts as its name does. -/
theorem text_eq_cons : ∃ c cs tail, d.name.toList = c :: cs ∧ d.text = c :: tail := by
  obtain ⟨c, cs, hc⟩ := List.exists_cons_of_ne_nil d.toList_name_ne_nil
  rw [text, hc]
  cases d.value with
  | none => exact ⟨c, cs, _, rfl, rfl⟩
  | some v => exact ⟨c, cs, _, rfl, rfl⟩

theorem head?_text : d.text.head? = d.name.toList.head? := by
  obtain ⟨c, cs, tail, hname, htext⟩ := d.text_eq_cons
  rw [hname, htext]
  rfl

/-- A declaration is cut at its first colon. -/
theorem nameAndValue_text : nameAndValue d.text = (d.name.toList, d.value.map String.toList) := by
  unfold nameAndValue text
  cases d.value with
  | none =>
    rw [Option.map_none, declared, dropWhile_eq_nil_of_not_mem d.colon_not_mem_name]
  | some v =>
    rw [Option.map_some, declared, dropWhile_append_sign d.colon_not_mem_name,
      takeWhile_append_sign d.colon_not_mem_name]

end Declaration

/-- Whatever is read as `name` or `name:value` is written so. -/
theorem eq_of_nameAndValue {declaration name : List Char} {fixed : Option (List Char)}
    (h : nameAndValue declaration = (name, fixed)) :
    ':' ∉ name ∧ declaration = declared name fixed := by
  unfold nameAndValue at h
  split at h
  · rename_i hd
    cases h
    refine ⟨fun hm => ?_, rfl⟩
    have := List.dropWhile_eq_nil_iff.mp hd ':' hm
    simp at this
  · rename_i c value hd
    cases h
    exact ⟨not_mem_takeWhile_sign declaration, eq_of_dropWhile_sign hd⟩

theorem mem_operators_iff {c : Char} : c ∈ operators ↔ c = '+' ∨ c ∈ unsupportedOperators :=
  List.mem_cons

/-- All that can stand at the head of a template's body. -/
theorem modifierOf_cases {impliedSlash : Bool} {body declaration : List Char}
    {modifier : Option Modifier} (h : modifierOf impliedSlash body = .ok (modifier, declaration)) :
    (modifier = some .catchAll ∧ body = '+' :: declaration) ∨
    (modifier = some .optional ∧ impliedSlash = true ∧ body = '/' :: declaration) ∨
    (modifier = none ∧ body = declaration ∧ ∀ c ∈ declaration.head?, c ∉ operators) := by
  cases body with
  | nil =>
    cases h
    exact Or.inr (Or.inr ⟨rfl, rfl, fun c hc => nomatch hc⟩)
  | cons c rest =>
    rw [modifierOf] at h
    split at h
    · rename_i hc
      cases h
      exact Or.inl ⟨rfl, by rw [hc]⟩
    · rename_i hplus
      split at h
      · rename_i hc
        cases h
        exact Or.inr (Or.inl ⟨rfl, hc.2, by rw [hc.1]⟩)
      · split at h
        · cases h
        · rename_i hop
          cases h
          refine Or.inr (Or.inr ⟨rfl, rfl, fun d hd => ?_⟩)
          cases hd
          rw [mem_operators_iff]
          exact not_or.mpr ⟨hplus, by simpa using hop⟩

/-- A declaration without an operator is read without a modifier. -/
theorem modifierOf_bare {d : Declaration} (h : d.IsBare) :
    modifierOf false d.text = .ok (none, d.text) := by
  obtain ⟨c, cs, tail, hname, htext⟩ := d.text_eq_cons
  have hc := h c (by rw [hname]; exact rfl)
  rw [mem_operators_iff, not_or] at hc
  rw [htext, modifierOf, if_neg hc.1, if_neg (by simp), if_neg (by simpa using hc.2)]

/-- A template with a declaration for its inside is read. -/
theorem template_of_modifierOf {impliedSlash : Bool} {body : List Char} {d : Declaration}
    {modifier : Option Modifier} (hm : modifierOf impliedSlash body = .ok (modifier, d.text))
    (hslash : ¬ (impliedSlash = true ∧ modifier = none)) :
    template impliedSlash body = .ok (d.template modifier) := by
  have hbad : d.name.toList.find? isBadInName = none := by
    rw [List.find?_eq_none]
    intro c hc
    have := d.name_plain c hc
    simp [isBadInName, this]
  have hfixed : d.value.map String.toList ≠ some [] := by
    intro hv
    obtain ⟨v, hv, hnil⟩ := Option.map_eq_some_iff.mp hv
    exact d.value_ne_empty (by rw [hv, String.toList_eq_nil_iff.mp hnil])
  unfold template
  simp only [hm, if_neg hslash, d.nameAndValue_text, if_neg d.toList_name_ne_nil, hbad, if_neg hfixed,
    String.ofList_toList, Option.map_map, Declaration.template]
  congr 2
  cases d.value <;> simp

/-- All that has been checked of a template that is read. -/
theorem template_cases {impliedSlash : Bool} {body : List Char} {t : Template}
    (h : template impliedSlash body = .ok t) : ∃ modifier declaration name fixed,
      modifierOf impliedSlash body = .ok (modifier, declaration) ∧
      ¬ (impliedSlash = true ∧ modifier = none) ∧
      nameAndValue declaration = (name, fixed) ∧ name ≠ [] ∧ name.find? isBadInName = none ∧
      fixed ≠ some [] ∧ t = ⟨String.ofList name, modifier, fixed.map String.ofList⟩ := by
  unfold template at h
  split at h
  · cases h
  · rename_i modifier declaration hm
    split at h
    · cases h
    · rename_i hslash
      dsimp only at h
      split at h
      · cases h
      · rename_i hname
        split at h
        · cases h
        · rename_i hbad
          split at h
          · cases h
          · rename_i hfixed
            cases h
            exact ⟨modifier, declaration, _, _, hm, hslash, rfl, hname, hbad, hfixed, rfl⟩

/-- What passes the checks of a name and a value is a declaration. -/
theorem exists_declaration {declaration name : List Char} {fixed : Option (List Char)}
    (hbrace : '}' ∉ declaration) (hcut : nameAndValue declaration = (name, fixed))
    (hname : name ≠ []) (hbad : name.find? isBadInName = none) (hfixed : fixed ≠ some []) :
    ∃ d : Declaration, d.text = declaration ∧ d.name = String.ofList name ∧
      d.value = fixed.map String.ofList := by
  obtain ⟨hcolon, htext⟩ := eq_of_nameAndValue hcut
  have hplain : ∀ c ∈ name, c ≠ '/' ∧ c ≠ '{' ∧ c ≠ ':' ∧ c ≠ '}' := by
    intro c hc
    have hgood := List.find?_eq_none.mp hbad c hc
    simp only [isBadInName, Bool.or_eq_true, decide_eq_true_eq, not_or] at hgood
    refine ⟨hgood.1, hgood.2, ?_, ?_⟩
    · rintro rfl
      exact hcolon hc
    · rintro rfl
      exact hbrace (htext ▸ mem_declared_of_mem_name hc)
  have hvalue : ∀ v, fixed.map String.ofList = some v → v ≠ "" ∧ '}' ∉ v.toList := by
    intro v hv
    obtain ⟨w, rfl, rfl⟩ := Option.map_eq_some_iff.mp hv
    refine ⟨fun hw => hfixed ?_, fun hm => hbrace ?_⟩
    · rw [String.ofList_eq_empty_iff.mp hw]
    · rw [String.toList_ofList] at hm
      rw [htext]
      exact List.mem_append_right name (List.mem_cons_of_mem ':' hm)
  refine ⟨⟨String.ofList name, fixed.map String.ofList, ?_, ?_, ?_, ?_⟩, ?_, rfl, rfl⟩
  · exact fun h => hname (String.ofList_eq_empty_iff.mp h)
  · rwa [String.toList_ofList]
  · exact fun h => (hvalue "" h).1 rfl
  · exact fun v hv => (hvalue v hv).2
  · rw [htext]
    cases fixed with
    | none => exact String.toList_ofList
    | some v =>
      change declared (String.ofList name).toList (some (String.ofList v).toList) = _
      rw [String.toList_ofList, String.toList_ofList]

/-- **Every template that is read has a declaration for its inside.** -/
theorem declaration_of_template {impliedSlash : Bool} {body : List Char} {t : Template}
    (hbrace : '}' ∉ body) (h : template impliedSlash body = .ok t) :
    ∃ (d : Declaration) (modifier : Option Modifier),
      modifierOf impliedSlash body = .ok (modifier, d.text) ∧
      ¬ (impliedSlash = true ∧ modifier = none) ∧ t = d.template modifier := by
  obtain ⟨modifier, declaration, name, fixed, hm, hslash, hcut, hname, hbad, hfixed, rfl⟩ :=
    template_cases h
  have hmem : ∀ c, c ∈ declaration → c ∈ body := by
    rcases modifierOf_cases hm with ⟨-, hb⟩ | ⟨-, -, hb⟩ | ⟨-, hb, -⟩
    · rw [hb]
      exact fun c => List.mem_cons_of_mem _
    · rw [hb]
      exact fun c => List.mem_cons_of_mem _
    · rw [hb]
      exact fun c => id
  obtain ⟨d, rfl, hdn, hdv⟩ :=
    exists_declaration (fun hm => hbrace (hmem _ hm)) hcut hname hbad hfixed
  exact ⟨d, modifier, hm, hslash, by rw [Declaration.template, hdn, hdv]⟩

theorem templateGroup_append {impliedSlash : Bool} {body : List Char} (hbrace : '}' ∉ body)
    (rest : List Char) : templateGroup impliedSlash (body ++ '}' :: rest)
      = (template impliedSlash body).map (·, rest) := by
  unfold templateGroup
  rw [dropWhile_append_sign hbrace, takeWhile_append_sign hbrace]
  cases template impliedSlash body <;> rfl

/-- A template group is a body and its closing brace. -/
theorem templateGroup_cases {impliedSlash : Bool} {text rest : List Char} {t : Template}
    (h : templateGroup impliedSlash text = .ok (t, rest)) :
    ∃ body, '}' ∉ body ∧ text = body ++ '}' :: rest ∧ template impliedSlash body = .ok t := by
  unfold templateGroup at h
  split at h
  · cases h
  · rename_i hd
    split at h
    · cases h
    · rename_i ht
      cases h
      exact ⟨_, not_mem_takeWhile_sign text, eq_of_dropWhile_sign hd, ht⟩

/-! ## 4. Reading one group -/

namespace Declaration

variable (d : Declaration)

/-- A template without an operator is read behind a slash only. -/
theorem templateGroup_bare (h : d.IsBare) (rest : List Char) :
    templateGroup false (d.text ++ '}' :: rest) = .ok (d.template none, rest) := by
  rw [templateGroup_append d.brace_not_mem_text, template_of_modifierOf (modifierOf_bare h) (by simp)]
  rfl

theorem templateGroup_plus (impliedSlash : Bool) (rest : List Char) :
    templateGroup impliedSlash ('+' :: d.text ++ '}' :: rest)
      = .ok (d.template (some .catchAll), rest) := by
  have hm : modifierOf impliedSlash ('+' :: d.text) = .ok (some .catchAll, d.text) := by
    rw [modifierOf, if_pos rfl]
  rw [templateGroup_append (by simp [d.brace_not_mem_text]), template_of_modifierOf hm (by simp)]
  rfl

theorem templateGroup_slash (rest : List Char) :
    templateGroup true ('/' :: d.text ++ '}' :: rest) = .ok (d.template (some .optional), rest) := by
  have hm : modifierOf true ('/' :: d.text) = .ok (some .optional, d.text) := by
    rw [modifierOf, if_neg (by decide), if_pos ⟨rfl, rfl⟩]
  rw [templateGroup_append (by simp [d.brace_not_mem_text]), template_of_modifierOf hm (by simp)]
  rfl

end Declaration

/-- A literal ends where the text does, or at a slash or a brace. If it is empty, the brace has to open
    an optional template, since another one would take the slash for its own. -/
theorem group_literal {text rest : List Char} (plain : ∀ c ∈ text, c ≠ '/' ∧ c ≠ '{')
    (hend : ∀ c ∈ rest.head?, endsLiteral c = true)
    (hopen : text = [] → ∀ tail, rest = '{' :: tail → tail.head? = some '/') :
    group ('/' :: (text ++ rest))
      = .ok (.literal (String.ofList (Text.Percent.decodeChars text)), rest) := by
  have hkeep : ∀ c ∈ text, (!endsLiteral c) = true := fun c hc => by simp [endsLiteral, plain c hc]
  have htake : (text ++ rest).takeWhile (!endsLiteral ·) = text := by
    rw [List.takeWhile_append_of_pos hkeep]
    cases rest with
    | nil => simp
    | cons c tail => simp [hend c rfl]
  have hdrop : (text ++ rest).dropWhile (!endsLiteral ·) = rest := by
    rw [List.dropWhile_append_of_pos hkeep]
    cases rest with
    | nil => rfl
    | cons c tail => simp [hend c rfl]
  by_cases hbrace : ∃ tail, text ++ rest = '{' :: tail
  · obtain ⟨tail, htail⟩ := hbrace
    cases text with
    | cons c cs =>
      cases htail
      exact absurd rfl (plain '{' List.mem_cons_self).2
    | nil =>
      obtain rfl : rest = '{' :: tail := htail
      cases tail with
      | nil => cases hopen rfl [] rfl
      | cons c more =>
        cases hopen rfl _ rfl
        rfl
  · rw [group, htake, hdrop]
    · exact fun tail h => hbrace ⟨_, h⟩
    · exact fun tail h => hbrace ⟨_, h⟩

theorem group_bare {d : Declaration} (h : d.IsBare) (rest : List Char) :
    group ('/' :: '{' :: (d.text ++ '}' :: rest)) = .ok (.param (d.template none), rest) := by
  obtain ⟨c, cs, tail, hname, htext⟩ := d.text_eq_cons
  have hc : c ≠ '/' := (d.name_plain c (by rw [hname]; exact List.mem_cons_self)).1
  rw [group, d.templateGroup_bare h]
  rw [htext]
  rintro more ⟨⟩
  exact hc rfl

theorem group_plus (d : Declaration) (rest : List Char) :
    group ('/' :: '{' :: '+' :: (d.text ++ '}' :: rest))
      = .ok (.param (d.template (some .catchAll)), rest) := by
  have h := d.templateGroup_plus false rest
  rw [List.cons_append] at h
  rw [group, h]
  rintro more ⟨⟩

theorem group_implied (modifier : Modifier) (d : Declaration) (rest : List Char) :
    group ('{' :: modifier.symbol :: (d.text ++ '}' :: rest))
      = .ok (.param (d.template (some modifier)), rest) := by
  cases modifier with
  | optional =>
    have h := d.templateGroup_slash rest
    rw [List.cons_append] at h
    rw [Modifier.symbol, group, h]
  | catchAll =>
    have h := d.templateGroup_plus true rest
    rw [List.cons_append] at h
    rw [Modifier.symbol, group, h]

/-- **Whatever is read as a group is one**, and the rest of the text stands behind it. -/
theorem exists_group {text rest : List Char} {s : Segment} (h : group text = .ok (s, rest)) :
    ∃ g : Group, text = g.text ++ rest := by
  unfold group at h
  split at h
  · cases h
  · cases h
    exact ⟨.literal [] (fun c hc => nomatch hc), rfl⟩
  · split at h
    · cases h
    · rename_i ht
      cases h
      obtain ⟨body, hbrace, rfl, hbody⟩ := templateGroup_cases ht
      obtain ⟨d, modifier, hm, -, -⟩ := declaration_of_template hbrace hbody
      rcases modifierOf_cases hm with ⟨-, rfl⟩ | ⟨-, himplied, -⟩ | ⟨-, rfl, hbare⟩
      · exact ⟨.slashed true d (fun hf => nomatch hf), by simp [Group.text]⟩
      · cases himplied
      · rw [d.head?_text] at hbare
        exact ⟨.slashed false d (fun _ => hbare), by simp [Group.text]⟩
  · cases h
    exact ⟨.literal _ fun c hc => by simpa [endsLiteral] using List.mem_takeWhile_imp hc,
      congrArg ('/' :: ·) List.takeWhile_append_dropWhile.symm⟩
  · split at h
    · cases h
    · rename_i ht
      cases h
      obtain ⟨body, hbrace, rfl, hbody⟩ := templateGroup_cases ht
      obtain ⟨d, modifier, hm, hslash, -⟩ := declaration_of_template hbrace hbody
      rcases modifierOf_cases hm with ⟨-, rfl⟩ | ⟨-, -, rfl⟩ | ⟨hnone, -, -⟩
      · exact ⟨.implied .catchAll d, by simp [Group.text, Modifier.symbol]⟩
      · exact ⟨.implied .optional d, by simp [Group.text, Modifier.symbol]⟩
      · exact absurd ⟨rfl, hnone⟩ hslash
  · cases h

/-! ## 5. Reading several groups -/

/-- Two texts that are read as one group when they stand together: a slash alone, and `{+`. -/
def Fuse (a b : List Char) : Prop := a = ['/'] ∧ ['{', '+'] <+: b

/-- No two neighbours among these groups are read as one. -/
def Separate (gs : List Group) : Prop := (gs.map Group.text).IsChain fun a b => ¬ Fuse a b

theorem separate_cons {g : Group} {gs : List Group} :
    Separate (g :: gs) ↔ (∀ h ∈ gs.head?, ¬ Fuse g.text h.text) ∧ Separate gs := by
  rw [Separate, List.map_cons, List.isChain_cons, ← Separate]
  refine and_congr_left fun _ => ?_
  cases gs <;> simp

namespace Group

/-- A group starts with a slash or a brace. -/
theorem text_eq_cons (g : Group) : ∃ c tail, g.text = c :: tail ∧ endsLiteral c = true := by
  cases g with
  | literal text plain => exact ⟨_, _, rfl, rfl⟩
  | slashed plus d bare => cases plus <;> exact ⟨_, _, rfl, rfl⟩
  | implied modifier d => exact ⟨_, _, rfl, rfl⟩

theorem endsLiteral_of_mem_head?_textOf : ∀ gs : List Group, ∀ c ∈ (textOf gs).head?,
    endsLiteral c = true
  | [], _, hc => nomatch hc
  | g :: gs, c, hc => by
    obtain ⟨d, tail, hg, hd⟩ := g.text_eq_cons
    rw [textOf_cons, hg] at hc
    cases hc
    exact hd

/-- Groups that start with a brace start with an implied slash or with `{+`. -/
theorem eq_implied_of_textOf {gs : List Group} {tail : List Char} (h : textOf gs = '{' :: tail) :
    ∃ modifier d more, gs = implied modifier d :: more := by
  cases gs with
  | nil => cases h
  | cons g gs =>
    cases g with
    | literal text plain => cases h
    | slashed plus d bare => cases plus <;> cases h
    | implied modifier d => exact ⟨modifier, d, gs, rfl⟩

theorem fuse_text_iff {g h : Group} : Fuse g.text h.text ↔
    (∃ plain, g = literal [] plain) ∧ ∃ d, h = implied .catchAll d := by
  constructor
  · rintro ⟨hg, tail, hh⟩
    constructor
    · cases g with
      | literal text plain =>
        cases hg
        exact ⟨plain, rfl⟩
      | slashed plus d bare => cases plus <;> cases hg
      | implied modifier d => cases hg
    · cases h with
      | literal text plain => cases hh
      | slashed plus d bare => cases plus <;> cases hh
      | implied modifier d =>
        cases modifier with
        | optional => cases hh
        | catchAll => exact ⟨d, rfl⟩
  · rintro ⟨⟨plain, rfl⟩, d, rfl⟩
    exact ⟨rfl, _, rfl⟩

end Group

/-- **The first of some groups is read**, and the others are left, if it does not meet the next one as
    one group. -/
theorem group_textOf {g : Group} {gs : List Group} (h : ∀ h ∈ gs.head?, ¬ Fuse g.text h.text) :
    group (textOf (g :: gs)) = .ok (g.segment, textOf gs) := by
  rw [textOf_cons]
  cases g with
  | literal text plain =>
    refine group_literal plain (Group.endsLiteral_of_mem_head?_textOf gs) ?_
    rintro rfl tail htail
    obtain ⟨modifier, d, more, rfl⟩ := Group.eq_implied_of_textOf htail
    cases modifier with
    | optional =>
      cases htail
      rfl
    | catchAll => exact absurd ⟨rfl, _, rfl⟩ (h _ rfl)
  | slashed plus d bare =>
    cases plus with
    | false =>
      have hg := group_bare (bare rfl) (textOf gs)
      simpa [Group.text, Group.segment] using hg
    | true =>
      have hg := group_plus d (textOf gs)
      simpa [Group.text, Group.segment] using hg
  | implied modifier d =>
    have hg := group_implied modifier d (textOf gs)
    simpa [Group.text, Group.segment] using hg

theorem parseChars_of_group {text rest : List Char} {s : Segment} (h : group text = .ok (s, rest)) :
    parseChars text = (parseChars rest).map (s :: ·) := by
  cases text with
  | nil => cases h
  | cons c cs =>
    rw [parseChars]
    split
    · rename_i hg
      rw [h] at hg
      cases hg
    · rename_i hg
      rw [h] at hg
      cases hg
      split <;> rename_i hp <;> rw [hp] <;> rfl

/-- Groups are read as they were put together if no two of them meet as one. -/
theorem parseChars_textOf_of_separate : ∀ {gs : List Group}, Separate gs →
    parseChars (textOf gs) = .ok (gs.map Group.segment)
  | [], _ => by
    rw [textOf_nil, parseChars]
    rfl
  | g :: gs, h => by
    obtain ⟨hg, hgs⟩ := separate_cons.mp h
    rw [parseChars_of_group (group_textOf hg), parseChars_textOf_of_separate hgs]
    rfl

/-- The groups of a text are groups of all of it. -/
theorem exists_textOf_of_parseChars : ∀ (text : List Char) {segments : List Segment},
    parseChars text = .ok segments → ∃ gs, textOf gs = text
  | [], _, _ => ⟨[], rfl⟩
  | c :: cs, segments, h => by
    obtain ⟨s, rest, more, hg, hm, -⟩ := parseChars_cons h
    obtain ⟨g, htext⟩ := exists_group hg
    obtain ⟨gs, rfl⟩ := exists_textOf_of_parseChars rest hm
    exact ⟨g :: gs, htext.symm⟩
termination_by text => text.length
decreasing_by exact length_of_group hg

/-! ## 6. Groups that meet as one -/

/-- Some groups behind another one: a slash alone and `{+name}` become `/{+name}`. -/
def Group.onto : Group → List Group → List Group
  | .literal [] _, .implied .catchAll d :: gs => .slashed true d (fun h => nomatch h) :: gs
  | g, gs => g :: gs

/-- The groups that are read of a text made of these. -/
def settle : List Group → List Group
  | [] => []
  | g :: gs => g.onto (settle gs)

namespace Group

/-- Either two groups become one, or the first is put in front of the others. -/
theorem onto_cases (g : Group) (gs : List Group) :
    (∃ plain d more, g = literal [] plain ∧ gs = implied .catchAll d :: more ∧
      g.onto gs = slashed true d (fun h => nomatch h) :: more) ∨
    ((∀ h ∈ gs.head?, ¬ Fuse g.text h.text) ∧ g.onto gs = g :: gs) := by
  by_cases hf : ∃ h ∈ gs.head?, Fuse g.text h.text
  · obtain ⟨h, hh, hf⟩ := hf
    obtain ⟨⟨plain, rfl⟩, d, rfl⟩ := fuse_text_iff.mp hf
    cases gs with
    | nil => cases hh
    | cons h more =>
      cases hh
      exact Or.inl ⟨plain, d, more, rfl, rfl, rfl⟩
  · refine Or.inr ⟨fun h hh hgh => hf ⟨h, hh, hgh⟩, ?_⟩
    cases g with
    | slashed plus d bare => rfl
    | implied modifier d => rfl
    | literal text plain =>
      cases text with
      | cons c text => rfl
      | nil =>
        cases gs with
        | nil => rfl
        | cons h more =>
          cases h with
          | literal text plain => rfl
          | slashed plus d bare => rfl
          | implied modifier d =>
            cases modifier with
            | optional => rfl
            | catchAll => exact absurd ⟨_, rfl, rfl, _, rfl⟩ hf

end Group

theorem textOf_settle : ∀ gs : List Group, textOf (settle gs) = textOf gs
  | [] => rfl
  | g :: gs => by
    rw [settle, textOf_cons, ← textOf_settle gs]
    rcases g.onto_cases (settle gs) with ⟨plain, d, more, rfl, hgs, honto⟩ | ⟨-, honto⟩
    · rw [honto, hgs]
      rfl
    · rw [honto, textOf_cons]

theorem separate_settle : ∀ gs : List Group, Separate (settle gs)
  | [] => List.IsChain.nil
  | g :: gs => by
    have ih := separate_settle gs
    rw [settle]
    rcases g.onto_cases (settle gs) with ⟨plain, d, more, rfl, hgs, honto⟩ | ⟨hg, honto⟩
    · rw [hgs] at ih
      rw [honto]
      refine separate_cons.mpr ⟨fun h _ hf => ?_, (separate_cons.mp ih).2⟩
      obtain ⟨⟨plain, hp⟩, -⟩ := Group.fuse_text_iff.mp hf
      cases hp
    · rw [honto]
      exact separate_cons.mpr ⟨hg, ih⟩

/-- Where groups meet as one, fewer are read than were put together. -/
theorem settle_eq_or_length_lt : ∀ gs : List Group,
    settle gs = gs ∨ (settle gs).length < gs.length
  | [] => Or.inl rfl
  | g :: gs => by
    have ih := settle_eq_or_length_lt gs
    have hle : (settle gs).length ≤ gs.length := by
      rcases ih with h | h
      · rw [h]
      · exact Nat.le_of_lt h
    rw [settle]
    rcases g.onto_cases (settle gs) with ⟨plain, d, more, -, hgs, honto⟩ | ⟨-, honto⟩
    · refine Or.inr ?_
      rw [hgs] at hle
      rw [honto]
      exact Nat.lt_succ_of_le hle
    · rw [honto]
      rcases ih with h | h
      · exact Or.inl (by rw [h])
      · exact Or.inr (Nat.succ_lt_succ h)

/-- **Every text made of groups is a pattern.** -/
theorem parseChars_textOf (gs : List Group) :
    parseChars (textOf gs) = .ok ((settle gs).map Group.segment) := by
  rw [← textOf_settle gs, parseChars_textOf_of_separate (separate_settle gs)]

/-- **As many segments are read as groups were put together exactly if no two groups meet as one**, and
    then they are what the groups stand for. -/
theorem parseChars_textOf_iff {gs : List Group} {segments : List Segment}
    (hlen : segments.length = gs.length) :
    parseChars (textOf gs) = .ok segments ↔ Separate gs ∧ gs.map Group.segment = segments := by
  constructor
  · intro h
    rw [parseChars_textOf] at h
    obtain rfl := Except.ok.inj h
    rw [List.length_map] at hlen
    rcases settle_eq_or_length_lt gs with heq | hlt
    · have hgs := separate_settle gs
      rw [heq] at hgs
      exact ⟨hgs, by rw [heq]⟩
    · omega
  · rintro ⟨hgs, rfl⟩
    exact parseChars_textOf_of_separate hgs

/-- The groups that are read are those that the reader prefers. -/
theorem separate_iff_prefersTemplates : ∀ {gs : List Group}, Separate gs ↔ PrefersTemplates gs
  | [] => ⟨fun _ => trivial, fun _ => List.IsChain.nil⟩
  | g :: gs => by
    rw [separate_cons, PrefersTemplates, separate_iff_prefersTemplates]
    refine and_congr_left fun _ => ⟨fun h c tail htext hc => ?_, fun h f hf hfuse => ?_⟩
    · cases g with
      | slashed plus d bare => trivial
      | implied modifier d => cases htext
      | literal text plain =>
        cases text with
        | cons e text =>
          obtain rfl : e = '{' := (List.cons.inj (List.cons.inj htext).2).1
          exact absurd rfl (plain '{' List.mem_cons_self).2
        | nil =>
          obtain ⟨modifier, d, more, rfl⟩ := Group.eq_implied_of_textOf (List.cons.inj htext).2
          cases htext
          cases modifier with
          | optional => exact absurd rfl hc
          | catchAll => exact absurd ⟨rfl, _, rfl⟩ (h _ rfl)
    · obtain ⟨⟨plain, rfl⟩, d, rfl⟩ := Group.fuse_text_iff.mp hfuse
      obtain ⟨more, rfl⟩ := List.head?_eq_some_iff.mp hf
      exact h '+' _ rfl (by decide)

/-- A text is read exactly if it is made of groups, and then as the reader prefers. -/
theorem parseChars_eq_ok_iff {text : List Char} {segments : List Segment} :
    parseChars text = .ok segments ↔
      ∃ gs, Separate gs ∧ textOf gs = text ∧ gs.map Group.segment = segments := by
  constructor
  · intro h
    obtain ⟨gs, rfl⟩ := exists_textOf_of_parseChars text h
    rw [parseChars_textOf] at h
    exact ⟨settle gs, separate_settle gs, textOf_settle gs, Except.ok.inj h⟩
  · rintro ⟨gs, hgs, rfl, rfl⟩
    exact parseChars_textOf_of_separate hgs

theorem parse_eq_ok_iff {p : String} {segments : List Segment} :
    parse p = .ok segments ↔ parseChars p.toList = .ok segments := by
  refine ⟨parseChars_of_parse, fun h => ?_⟩
  rw [parse, h]

/-! ## 7. Patterns -/

/-- **A pattern is a text made of groups, and nothing else is one.** Of several ways to take it apart,
    the one that prefers templates says what the pattern stands for. A text that is not made of groups is
    refused, and the refusal names it. -/
theorem parse_grammar (p : String) :
    (∀ segments, parse p = .ok segments ↔
      ∃ gs : List Group, PrefersTemplates gs ∧ textOf gs = p.toList ∧
        gs.map Group.segment = segments) ∧
    ((∃ segments, parse p = .ok segments) ↔ ∃ gs : List Group, textOf gs = p.toList) ∧
    ((∃ fault, parse p = .error (.malformedPattern p fault)) ↔
      ¬ ∃ gs : List Group, textOf gs = p.toList) := by
  have hread : ∀ segments, parse p = .ok segments ↔
      ∃ gs : List Group, PrefersTemplates gs ∧ textOf gs = p.toList ∧
        gs.map Group.segment = segments := by
    intro segments
    rw [parse_eq_ok_iff, parseChars_eq_ok_iff]
    simp only [separate_iff_prefersTemplates]
  have hmade : (∃ segments, parse p = .ok segments) ↔ ∃ gs : List Group, textOf gs = p.toList := by
    constructor
    · rintro ⟨segments, h⟩
      obtain ⟨gs, -, hgs, -⟩ := (hread segments).mp h
      exact ⟨gs, hgs⟩
    · rintro ⟨gs, hgs⟩
      exact ⟨_, parse_eq_ok_iff.mpr (hgs ▸ parseChars_textOf gs)⟩
  refine ⟨hread, hmade, ?_⟩
  rw [← hmade]
  unfold parse
  cases parseChars p.toList with
  | error fault => simp
  | ok segments => simp

end RouteTree.Pattern
