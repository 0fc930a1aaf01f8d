import Mathlib.Data.List.Infix
import RouteTree.Proofs.Pattern.Grammar
import RouteTree.Proofs.Text.Codec

/-!
# Patterns that are put together

Patterns are put together as texts and as lists of segments. The two agree unless groups meet as one:
a slash at the end of what stands in front takes a template `{+name}` behind it for its own.

* `parse_append_iff`: two patterns behind each other;
* `parse_displayAll_eq_ok_iff`: segments that are written one behind the other, each as it is displayed;
* `parse_displayAll_iff`: the segments of a pattern, displayed and read again.
-/

namespace RouteTree.Pattern

/-! ## 1. Two patterns -/

theorem separate_append {gs hs : List Group} : Separate (gs ++ hs) ↔
    Separate gs ∧ Separate hs ∧ ∀ g ∈ gs.getLast?, ∀ h ∈ hs.head?, ¬ Fuse g.text h.text := by
  rw [Separate, List.map_append, List.isChain_append, ← Separate, ← Separate]
  simp

namespace Group

/-- Only a slash alone ends with a slash. -/
theorem getLast?_text_eq_slash_iff {g : Group} : g.text.getLast? = some '/' ↔ g.text = ['/'] := by
  refine ⟨fun h => ?_, fun h => by rw [h]; rfl⟩
  cases g with
  | literal text plain =>
    obtain ⟨front, hfront⟩ := List.getLast?_eq_some_iff.mp h
    cases text with
    | nil => rfl
    | cons c text =>
      have hmem : '/' ∈ c :: text := by
        cases front with
        | nil => cases hfront
        | cons d front =>
          rw [(List.cons.inj hfront).2]
          exact List.mem_append_right front (List.mem_singleton.mpr rfl)
      exact absurd rfl (plain '/' hmem).1
  | slashed plus d bare =>
    have hlast : (slashed plus d bare).text.getLast? = some '}' := by
      cases plus
      · exact List.getLast?_append_of_ne_nil ('/' :: '{' :: d.text) (List.cons_ne_nil '}' [])
      · exact List.getLast?_append_of_ne_nil ('/' :: '{' :: '+' :: d.text) (List.cons_ne_nil '}' [])
    rw [hlast] at h
    cases h
  | implied modifier d =>
    have hlast : (implied modifier d).text.getLast? = some '}' :=
      List.getLast?_append_of_ne_nil ('{' :: modifier.symbol :: d.text) (List.cons_ne_nil '}' [])
    rw [hlast] at h
    cases h

/-- Only a template that takes all that is left starts with `{+`. -/
theorem isPrefix_text_append_iff {g : Group} (tail : List Char) :
    ['{', '+'] <+: g.text ++ tail ↔ ['{', '+'] <+: g.text := by
  cases g with
  | literal text plain => simp [Group.text]
  | slashed plus d bare => cases plus <;> simp [Group.text]
  | implied modifier d => simp [Group.text]

end Group

theorem getLast?_textOf_eq_slash_iff {gs : List Group} :
    (textOf gs).getLast? = some '/' ↔ ∃ g ∈ gs.getLast?, g.text = ['/'] := by
  rcases List.eq_nil_or_concat gs with rfl | ⟨front, g, rfl⟩
  · simp
  · obtain ⟨c, tail, hg, -⟩ := g.text_eq_cons
    have hne : g.text ≠ [] := by simp [hg]
    rw [List.concat_eq_append, textOf_append, textOf_cons, textOf_nil, List.append_nil,
      List.getLast?_append_of_ne_nil _ hne, Group.getLast?_text_eq_slash_iff]
    simp

theorem isPrefix_textOf_iff {hs : List Group} :
    ['{', '+'] <+: textOf hs ↔ ∃ h ∈ hs.head?, ['{', '+'] <+: h.text := by
  cases hs with
  | nil => simp
  | cons h hs =>
    rw [textOf_cons, Group.isPrefix_text_append_iff]
    simp

/-- **Two patterns behind each other are read one after the other**, unless the first ends with a slash
    and the second starts with `{+`. -/
theorem parse_append_iff {p q : String} {ss ts : List Segment} (hp : parse p = .ok ss)
    (hq : parse q = .ok ts) : parse (p ++ q) = .ok (ss ++ ts) ↔
      ¬ (p.toList.getLast? = some '/' ∧ ['{', '+'] <+: q.toList) := by
  obtain ⟨gs, hgs, hpt, rfl⟩ := parseChars_eq_ok_iff.mp (parse_eq_ok_iff.mp hp)
  obtain ⟨hs, hhs, hqt, rfl⟩ := parseChars_eq_ok_iff.mp (parse_eq_ok_iff.mp hq)
  have hread : parse (p ++ q) = .ok (gs.map Group.segment ++ hs.map Group.segment) ↔
      Separate (gs ++ hs) := by
    rw [parse_eq_ok_iff, String.toList_append, ← hpt, ← hqt, ← textOf_append,
      parseChars_textOf_iff (by simp)]
    simp
  have hmeet : (∀ g ∈ gs.getLast?, ∀ h ∈ hs.head?, ¬ Fuse g.text h.text) ↔
      ¬ (p.toList.getLast? = some '/' ∧ ['{', '+'] <+: q.toList) := by
    rw [← hpt, ← hqt, getLast?_textOf_eq_slash_iff, isPrefix_textOf_iff]
    constructor
    · rintro h ⟨⟨g, hg, hslash⟩, f, hf, hrest⟩
      exact h g hg f hf ⟨hslash, hrest⟩
    · rintro h g hg f hf ⟨hslash, hrest⟩
      exact h ⟨⟨g, hg, hslash⟩, f, hf, hrest⟩
  rw [hread, separate_append, ← hmeet]
  exact ⟨fun h => h.2.2, fun h => ⟨hgs, hhs, h⟩⟩

/-- Behind `/v1/`, an optional template is read as it stands, one for all that is left is not. -/
theorem parse_append_behind_slash :
    parse ("/v1/" ++ "{/lang}")
      = .ok [.literal "v1", .literal "", .param ⟨"lang", some .optional, none⟩] ∧
    parse ("/v1/" ++ "{+rest}")
      ≠ .ok [.literal "v1", .literal "", .param ⟨"rest", some .catchAll, none⟩] := by
  have hp : parse "/v1/" = .ok [.literal "v1", .literal ""] := by with_unfolding_all rfl
  have hlang : parse "{/lang}" = .ok [.param ⟨"lang", some .optional, none⟩] := by
    with_unfolding_all rfl
  have hrest : parse "{+rest}" = .ok [.param ⟨"rest", some .catchAll, none⟩] := by
    with_unfolding_all rfl
  constructor
  · exact (parse_append_iff hp hlang).mpr (by decide)
  · exact fun h => (parse_append_iff hp hrest).mp h (by decide)

/-! ## 2. Segments as they are displayed -/

/-- The segment is one that a pattern can stand for: a literal, or a template with a declaration for
    its inside. -/
def IsDeclared : Segment → Prop
  | .literal _ => True
  | .param t => ∃ d : Declaration, t = d.template t.modifier ∧ (t.modifier = none → d.IsBare)
  | _ => False

theorem Group.isDeclared_segment (g : Group) : IsDeclared g.segment := by
  cases g with
  | literal text plain => trivial
  | slashed plus d bare =>
    cases plus with
    | false => exact ⟨d, rfl, fun _ => bare rfl⟩
    | true => exact ⟨d, rfl, fun h => nomatch h⟩
  | implied modifier d => exact ⟨d, rfl, fun h => nomatch h⟩

/-- What a pattern stands for is declared. -/
theorem isDeclared_of_parse {p : String} {ss : List Segment} (h : parse p = .ok ss) :
    ∀ s ∈ ss, IsDeclared s := by
  obtain ⟨gs, -, -, rfl⟩ := parseChars_eq_ok_iff.mp (parse_eq_ok_iff.mp h)
  intro s hs
  obtain ⟨g, -, rfl⟩ := List.mem_map.mp hs
  exact g.isDeclared_segment

theorem toList_display_template (d : Declaration) (modifier : Option Modifier) :
    (d.template modifier).display.toList
      = (d.template modifier).opening.toList ++ (d.text ++ ['}']) := by
  rw [Template.display, Declaration.text, Declaration.template]
  cases d.value <;> simp [declared]

/-- **A declared segment is displayed as a group that stands for it.** -/
theorem exists_group_display {s : Segment} (h : IsDeclared s) :
    ∃ g : Group, g.text = s.display.toList ∧ g.segment = s := by
  cases s with
  | literal text =>
    have hplain : ∀ c ∈ (Text.Percent.encodeComponent text).toList, c ≠ '/' ∧ c ≠ '{' := fun c hc =>
      ⟨(Text.Percent.encodeComponent_plain c hc).1, (Text.Percent.encodeComponent_plain c hc).2.1⟩
    refine ⟨.literal _ hplain, ?_, ?_⟩
    · simp [Group.text, Segment.display]
    · exact congrArg Segment.literal (Text.Percent.decode_encodeComponent text)
  | param t =>
    obtain ⟨d, ht, hbare⟩ := h
    cases hm : t.modifier with
    | none =>
      rw [hm] at ht
      refine ⟨.slashed false d fun _ => hbare hm, ?_, by rw [ht]; rfl⟩
      rw [ht, Segment.display, toList_display_template]
      simp [Group.text, Template.opening, Declaration.template]
    | some modifier =>
      rw [hm] at ht
      refine ⟨.implied modifier d, ?_, by rw [ht]; rfl⟩
      rw [ht, Segment.display, toList_display_template]
      cases modifier <;> simp [Group.text, Template.opening, Declaration.template, Modifier.symbol]
  | reserved text => exact h.elim
  | tag name => exact h.elim

theorem exists_map_display : ∀ {ss : List Segment}, (∀ s ∈ ss, IsDeclared s) →
    ∃ gs : List Group, gs.map Group.text = ss.map (·.display.toList) ∧ gs.map Group.segment = ss
  | [], _ => ⟨[], rfl, rfl⟩
  | s :: ss, h => by
    obtain ⟨g, htext, hseg⟩ := exists_group_display (h s List.mem_cons_self)
    obtain ⟨gs, htexts, hsegs⟩ := exists_map_display fun x hx => h x (List.mem_cons_of_mem s hx)
    exact ⟨g :: gs, by rw [List.map_cons, htext, htexts, List.map_cons],
      by rw [List.map_cons, hseg, hsegs]⟩

/-- The display of declared segments is a text made of groups that stand for them. -/
theorem exists_groups_displayAll {ss : List Segment} (h : ∀ s ∈ ss, IsDeclared s) :
    ∃ gs : List Group, textOf gs = (Segment.displayAll ss).toList ∧
      gs.map Group.text = ss.map (·.display.toList) ∧ gs.map Group.segment = ss := by
  obtain ⟨gs, htexts, hsegs⟩ := exists_map_display h
  refine ⟨gs, ?_, htexts, hsegs⟩
  rw [textOf, List.flatMap_def, htexts, Segment.displayAll, String.toList_join, List.flatMap_map,
    List.flatMap_def]

/-- An empty literal and a template that takes all that is left are the segments that meet as one. -/
theorem fuse_display_iff {a b : Segment} (ha : IsDeclared a) (hb : IsDeclared b) :
    Fuse a.display.toList b.display.toList ↔ a = .literal "" ∧ b.isCatchAll = true := by
  constructor
  · intro hf
    obtain ⟨g, hg, rfl⟩ := exists_group_display ha
    obtain ⟨h, hh, rfl⟩ := exists_group_display hb
    rw [← hg, ← hh] at hf
    obtain ⟨⟨plain, rfl⟩, d, rfl⟩ := Group.fuse_text_iff.mp hf
    exact ⟨rfl, rfl⟩
  · rintro ⟨rfl, hrest⟩
    cases b with
    | param t =>
      have hm : t.modifier = some .catchAll := of_decide_eq_true hrest
      refine ⟨by simp [Segment.display, Text.Percent.encodeComponent, Text.Percent.encode], ?_⟩
      simp [Segment.display, Template.display, Template.opening, hm]
    | literal text => cases hrest
    | reserved text => cases hrest
    | tag name => cases hrest

/-- A relation holds along a list if it holds of any two neighbours. -/
theorem isChain_iff_neighbours {α : Type} {R : α → α → Prop} {l : List α} :
    l.IsChain R ↔ ∀ a b, [a, b] <:+: l → R a b := by
  refine ⟨fun h a b hab => List.isChain_pair.mp ( List.IsChain.infix h hab), fun h => ?_⟩
  rw [List.isChain_iff_forall_rel_of_append_cons_cons]
  rintro a b front back rfl
  exact h a b ⟨front, back, by simp⟩

/-- No empty literal stands right in front of a template that takes all that is left. -/
def NoEmptyBeforeRest (ss : List Segment) : Prop :=
  ∀ s, [.literal "", s] <:+: ss → s.isCatchAll = false

theorem noEmptyBeforeRest_iff_isChain {ss : List Segment} :
    NoEmptyBeforeRest ss ↔ ss.IsChain fun a b => a = .literal "" → b.isCatchAll = false := by
  rw [isChain_iff_neighbours]
  exact ⟨fun h a b hab ha => h b (ha ▸ hab), fun h s hs => h _ s hs rfl⟩

/-- **Segments are read back from their display exactly if no empty literal stands in front of a template
    that takes all that is left.** If one does, fewer are read. -/
theorem parse_displayAll_eq_ok_iff {ss ts : List Segment} (hss : ∀ s ∈ ss, IsDeclared s)
    (hlen : ts.length = ss.length) :
    parse (Segment.displayAll ss) = .ok ts ↔ NoEmptyBeforeRest ss ∧ ss = ts := by
  obtain ⟨gs, htext, htexts, rfl⟩ := exists_groups_displayAll hss
  rw [parse_eq_ok_iff, ← htext, parseChars_textOf_iff (by simpa using hlen)]
  refine and_congr_left fun _ => ?_
  rw [Separate, htexts, List.isChain_map, noEmptyBeforeRest_iff_isChain, isChain_iff_neighbours,
    isChain_iff_neighbours]
  refine forall_congr' fun a => forall_congr' fun b => forall_congr' fun hab => ?_
  have ha : IsDeclared a := hss a (hab.subset (by simp))
  have hb : IsDeclared b := hss b (hab.subset (by simp))
  rw [fuse_display_iff ha hb]
  simp

/-- Whatever is displayed of declared segments is a pattern. -/
theorem parse_displayAll_isOk {ss : List Segment} (hss : ∀ s ∈ ss, IsDeclared s) :
    ∃ ts, parse (Segment.displayAll ss) = .ok ts := by
  obtain ⟨gs, htext, -⟩ := exists_groups_displayAll hss
  exact ⟨_, parse_eq_ok_iff.mpr (htext ▸ parseChars_textOf gs)⟩

/-- **The segments of a pattern are read back from their display exactly if no empty literal stands in
    front of a template that takes all that is left.** -/
theorem parse_displayAll_iff {p : String} {ss : List Segment} (h : parse p = .ok ss) :
    parse (Segment.displayAll ss) = .ok ss ↔ NoEmptyBeforeRest ss := by
  rw [parse_displayAll_eq_ok_iff (isDeclared_of_parse h) rfl]
  exact and_iff_left rfl

/-- In front of a template for all that is left, a literal with delimiters in it is read back from its
    display, an empty one is not. -/
theorem parse_displayAll_in_front_of_rest :
    parse (Segment.displayAll [.literal "a/b\x7b", .param ⟨"rest", some .catchAll, some "x:/"⟩])
      = .ok [.literal "a/b\x7b", .param ⟨"rest", some .catchAll, some "x:/"⟩] ∧
    parse (Segment.displayAll [.literal "", .param ⟨"rest", some .catchAll, none⟩])
      ≠ .ok [.literal "", .param ⟨"rest", some .catchAll, none⟩] := by
  have hfull : parse "/a%2Fb%7B{+rest:x:/}"
      = .ok [.literal "a/b\x7b", .param ⟨"rest", some .catchAll, some "x:/"⟩] := by
    decide +kernel
  have hempty : parse "//{+rest}"
      = .ok [.literal "", .param ⟨"rest", some .catchAll, none⟩] := by
    decide +kernel
  constructor
  · refine (parse_displayAll_iff hfull).mpr fun s hs => ?_
    have hmem := hs.subset (List.mem_cons_self : Segment.literal "" ∈ [Segment.literal "", s])
    simp at hmem
  · intro h
    have hrest := (parse_displayAll_iff hempty).mp h _ (List.infix_refl _)
    cases hrest

end RouteTree.Pattern
