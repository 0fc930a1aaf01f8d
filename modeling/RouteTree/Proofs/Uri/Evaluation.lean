import RouteTree.Proofs.Uri.Cache
import RouteTree.Proofs.Uri.Reading

/-!
# Expanding and rendering

A template is evaluated in two places: an expansion puts its value into the path, and a rendering
writes its value into the text. This file proves that the two evaluate alike:

* `filled` is what an expansion puts in the place of a segment that has a value;
  `expandSegments_append` and `pathText_append` go down a path as long as every template has one;
* `pathText_filled` compares the two at one segment. A catch-all value is cut at its slashes by the
  one and written as a whole by the other;
* `expand_and_render` says what the two make of a whole path, up to its first template without a value.
-/

namespace RouteTree

/-- The template has a value under `params`: its name is bound there, or it is pinned. -/
def Template.HasValue (t : Template) (params : Params) : Prop :=
  (params.get? t.name).isSome = true ∨ t.fixed.isSome = true

namespace Uri

/-! ## 1. Values -/

/-- Every template of the path has a value under `params`. -/
def Valued (params : Params) (segments : List Segment) : Prop :=
  ∀ t, .param t ∈ segments → t.HasValue params

theorem resolve_isSome_iff {params : Params} {t : Template} :
    (resolve params t).isSome = true ↔ t.HasValue params := by
  unfold resolve Template.HasValue
  cases params.get? t.name <;> simp

theorem resolve_of_hasValue {params : Params} {t : Template} (h : t.HasValue params) :
    ∃ value, resolve params t = some value :=
  Option.isSome_iff_exists.mp (resolve_isSome_iff.mpr h)

theorem resolve_of_not_hasValue {params : Params} {t : Template} (h : ¬ t.HasValue params) :
    resolve params t = none := by
  rw [← resolve_isSome_iff] at h
  simpa using h

theorem Valued.first {params : Params} {s : Segment} {rest : List Segment}
    (h : Valued params (s :: rest)) : Valued params [s] :=
  fun t ht => h t (List.mem_singleton.mp ht ▸ List.mem_cons_self)

theorem Valued.tail {params : Params} {s : Segment} {rest : List Segment}
    (h : Valued params (s :: rest)) : Valued params rest :=
  fun t ht => h t (List.mem_cons_of_mem s ht)

/-- What an expansion puts in the place of a segment, if it has a value or needs none. -/
def filled (params : Params) : Segment → List Segment
  | .param t =>
    match resolve params t with
    | none => []
    | some value => if t.isCatchAll then catchAllSegments value else [.literal value]
  | s => [s]

/-! ## 2. Expanding -/

theorem expandSegments_cons {params : Params} {s : Segment} (h : Valued params [s])
    (rest : List Segment) :
    expandSegments params (s :: rest) = (expandSegments params rest).map (filled params s ++ ·) := by
  cases s with
  | literal text => rfl
  | reserved text => rfl
  | tag name => rfl
  | param t =>
    obtain ⟨value, hv⟩ := resolve_of_hasValue (h t List.mem_cons_self)
    rw [expandSegments, hv]
    cases hm : t.modifier with
    | none => simp [filled, hv, Template.isCatchAll, hm]
    | some m => cases m <;> simp [filled, hv, Template.isCatchAll, hm]

/-- **An expansion goes down a path** as long as every template has a value. -/
theorem expandSegments_append {params : Params} : ∀ {front : List Segment}, Valued params front →
    ∀ back, expandSegments params (front ++ back)
      = (expandSegments params back).map (front.flatMap (filled params) ++ ·)
  | [], _, back => by
    rw [List.nil_append, List.flatMap_nil]
    cases expandSegments params back <;> rfl
  | s :: front, h, back => by
    rw [List.cons_append, expandSegments_cons h.first, expandSegments_append h.tail back]
    cases expandSegments params back with
    | error e => rfl
    | ok below => simp [Except.map]

theorem expandSegments_of_valued {params : Params} {segments : List Segment}
    (h : Valued params segments) :
    expandSegments params segments = .ok (segments.flatMap (filled params)) := by
  have hnil := expandSegments_append h []
  rw [List.append_nil] at hnil
  rw [hnil, expandSegments]
  simp [Except.map]

/-! ## 3. Rendering -/

/-- A catch-all value is written as its pieces are, each behind a slash. -/
theorem flatMap_splitOn_encode {keep : Char → Bool} {sep : Char} (hsep : keep sep = true) :
    ∀ text : List Char,
      (text.splitOn sep).flatMap (fun piece => sep :: Text.Percent.encode keep piece)
        = sep :: Text.Percent.encode keep text
  | [] => by simp [Text.Percent.encode]
  | c :: rest => by
    have ih := flatMap_splitOn_encode hsep rest
    rw [List.splitOn_cons_eq_if_modifyHead, Text.Percent.encode, List.flatMap_cons,
      ← Text.Percent.encode]
    split
    · rename_i hc
      obtain rfl := eq_of_beq hc
      rw [List.flatMap_cons, ih, if_pos hsep]
      rfl
    · cases hs : rest.splitOn sep with
      | nil => exact absurd hs (List.splitOn_ne_nil sep rest)
      | cons piece pieces =>
        rw [hs, List.flatMap_cons, List.cons_append, List.cons.injEq] at ih
        rw [List.modifyHead_cons, List.flatMap_cons, Text.Percent.encode, List.flatMap_cons,
          ← Text.Percent.encode, ← ih.2]
        simp

theorem pathText_catchAllSegments (params : Params) (value : String) :
    pathText .expanded params (catchAllSegments value)
      = "/" ++ Text.Percent.encodeReserved value := by
  have hw : (catchAllSegments value).map Segment.written?
      = ((value.toList.splitOn '/').map fun piece =>
          Text.Percent.encodeReserved (String.ofList piece)).map some := by
    rw [catchAllSegments, List.map_map, List.map_map]
    rfl
  have hflat := flatMap_splitOn_encode (show Text.Percent.isReservedSafe '/' = true by decide) value.toList
  rw [← String.toList_inj, toList_pathText hw, List.flatMap_map, String.toList_append,
    Text.Percent.encodeReserved, String.toList_ofList]
  simpa [Text.Percent.encodeReserved] using hflat

/-- **One segment is expanded and rendered alike.** -/
theorem pathText_filled {params : Params} {s : Segment} (h : Valued params [s]) {format : Format}
    (hf : format ≠ .fullPattern) (rest : List Segment) :
    pathText format params (s :: rest)
      = pathText .expanded [] (filled params s) ++ pathText format params rest := by
  cases s with
  | literal text => simp [pathText, filled]
  | reserved text => simp [pathText, filled]
  | tag name => simp [pathText, filled]
  | param t =>
    obtain ⟨value, hv⟩ := resolve_of_hasValue (h t List.mem_cons_self)
    have htext : pathText format params (.param t :: rest)
        = valueText t value ++ pathText format params rest := by
      cases format <;> simp_all [pathText]
    rw [htext, filled, hv]
    dsimp only
    refine congrArg (· ++ pathText format params rest) ?_
    rw [valueText]
    split
    · exact (pathText_catchAllSegments [] value).symm
    · simp [pathText]

/-- What has no template in it is written in front of what follows. -/
theorem pathText_plain_append {front : List Segment} (h : ∀ t, .param t ∉ front)
    (back : List Segment) :
    pathText .expanded [] (front ++ back)
      = pathText .expanded [] front ++ pathText .expanded [] back := by
  induction front with
  | nil => exact String.empty_append.symm
  | cons s front ih =>
    have ih := ih fun t ht => h t (List.mem_cons_of_mem s ht)
    cases s with
    | literal text => simp only [List.cons_append, pathText, ih, String.append_assoc]
    | reserved text => simp only [List.cons_append, pathText, ih, String.append_assoc]
    | tag name => simp only [List.cons_append, pathText, ih]
    | param t => exact absurd List.mem_cons_self (h t)

theorem not_param_mem_filled {params : Params} {s : Segment} (t : Template) :
    .param t ∉ filled params s := by
  cases s with
  | literal text => simp [filled]
  | reserved text => simp [filled]
  | tag name => simp [filled]
  | param u =>
    rw [filled]
    split
    · exact List.not_mem_nil
    · split
      · intro ht
        obtain ⟨piece, -, he⟩ := List.mem_map.mp ht
        cases he
      · simp

/-- **A rendering goes down a path** as long as every template has a value, and writes what an
    expansion leaves of it. -/
theorem pathText_append {params : Params} {format : Format} (hf : format ≠ .fullPattern) :
    ∀ {front : List Segment}, Valued params front → ∀ back,
      pathText format params (front ++ back)
        = pathText .expanded [] (front.flatMap (filled params)) ++ pathText format params back
  | [], _, back => String.empty_append.symm
  | s :: front, h, back => by
    rw [List.cons_append, pathText_filled h.first hf, pathText_append hf h.tail back,
      List.flatMap_cons, pathText_plain_append not_param_mem_filled, String.append_assoc]

/-! ## 4. Whole paths -/

theorem expand_of_valued {u : Uri} {params : Option Params}
    (h : Valued (params.getD u.params) u.segments) :
    u.expand params
      = .ok (ofParts u.origin (u.segments.flatMap (filled (params.getD u.params)))) := by
  rw [expand, expandSegments_of_valued h]
  rfl

section
variable {u : Uri} {params : Option Params} {front back : List Segment} {t : Template}

/-- The expanded rendering up to the first template without a value. -/
theorem rendering_at_first (hs : u.segments = front ++ .param t :: back)
    (hfront : Valued (params.getD u.params) front) (ht : ¬ t.HasValue (params.getD u.params)) :
    u.rendering .expanded params
      = (ofParts u.origin (front.flatMap (filled (params.getD u.params)))).text
        ++ (if t.isCatchAll then "/" else "") := by
  have hend : pathText .expanded (params.getD u.params) (.param t :: back)
      = if t.isCatchAll then "/" else "" := by
    simp only [pathText, resolve_of_not_hasValue ht]
  rw [rendering, hs, pathText_append (by decide) hfront, hend, ← String.append_assoc]
  rfl

/-- The expansion up to the first template without a value. -/
theorem expand_at_first (hs : u.segments = front ++ .param t :: back)
    (hfront : Valued (params.getD u.params) front) (ht : ¬ t.HasValue (params.getD u.params)) :
    u.expand params
      = match t.modifier with
        | none => .error (.missingParameter t.name)
        | some .optional => (ofParts u.origin (front ++ back)).expand (some (params.getD u.params))
        | some .catchAll =>
          .ok (ofParts u.origin (front.flatMap (filled (params.getD u.params)))) := by
  rw [expand, hs, expandSegments_append hfront, expandSegments, resolve_of_not_hasValue ht]
  cases hm : t.modifier with
  | none => rfl
  | some m =>
    cases m with
    | optional =>
      rw [expand]
      show _ = (expandSegments (params.getD u.params) (front ++ back)).map (ofParts u.origin)
      rw [expandSegments_append hfront]
    | catchAll =>
      show Except.ok (ofParts u.origin (_ ++ [])) = _
      rw [List.append_nil]

end

/-- **Expanding and rendering evaluate templates alike.** Take any URI that there is, and parameters that
    are given or its own.

    * If every template has a value, the expansion succeeds, and its text is both the expanded and the
      simple rendering.
    * Otherwise, take the first template without a value. What stands in front of it is expanded, and
      the expanded rendering is the text of that; where the template takes all that is left, with a
      slash behind it. The expansion ends there as well in that case, is refused for the name of the
      template if it has no modifier, and goes on without it if it may be absent. -/
theorem expand_and_render {u : Uri} (hu : u.Made) (params : Option Params) :
    (Valued (params.getD u.params) u.segments → ∃ v, u.expand params = .ok v ∧
      (u.render .expanded params).1 = v.text ∧ (u.render .simplePattern params).1 = v.text) ∧
    ∀ front t back, u.segments = front ++ .param t :: back →
      Valued (params.getD u.params) front → ¬ t.HasValue (params.getD u.params) →
      ∃ w, (ofParts u.origin front).expand (some (params.getD u.params)) = .ok w ∧
        (t.modifier = some .catchAll →
          u.expand params = .ok w ∧ (u.render .expanded params).1 = w.text ++ "/") ∧
        (t.modifier = none → u.expand params = .error (.missingParameter t.name) ∧
          (u.render .expanded params).1 = w.text) ∧
        (t.modifier = some .optional →
          u.expand params = (ofParts u.origin (front ++ back)).expand (some (params.getD u.params)) ∧
          (u.render .expanded params).1 = w.text) := by
  rw [hu.current.render, hu.current.render]
  constructor
  · intro hvalued
    have htext : ∀ format, format ≠ .fullPattern → u.rendering format params
        = (ofParts u.origin (u.segments.flatMap (filled (params.getD u.params)))).text := by
      intro format hf
      have happ := pathText_append hf hvalued []
      have hnil : pathText format (params.getD u.params) [] = "" := by simp [pathText]
      rw [List.append_nil, hnil, String.append_empty] at happ
      exact congrArg (u.origin.getD "" ++ ·) happ
    exact ⟨_, expand_of_valued hvalued, htext _ (by decide), htext _ (by decide)⟩
  · intro front t back hs hfront ht
    have hexp := expand_at_first hs hfront ht
    have hrend := rendering_at_first hs hfront ht
    have hw := @expand_of_valued (ofParts u.origin front) (some (params.getD u.params)) hfront
    refine ⟨_, hw, ?_, ?_, ?_⟩
    all_goals
      intro hm
      rw [hm] at hexp
      simp only [Template.isCatchAll, hm] at hrend
      refine ⟨hexp, hrend.trans ?_⟩
    · rfl
    · exact String.append_empty
    · exact String.append_empty

/-- A pinned template, a list of values and a template for all that is left, which has no value. -/
theorem expand_and_render_page :
    let Q : Params := [("lang", .list ["de", "en"])]
    ∃ u, parsePattern "/{site:test.com}/page{/lang}{+rest}" = .ok u ∧
      ∃ w, u.expand (some Q) = .ok w ∧ (u.render .expanded (some Q)).1 = w.text ++ "/" ∧
        w.text = "/test.com/page/de%2Cen" := by
  intro Q
  let front : List Segment :=
    [.param ⟨"site", none, some "test.com"⟩, .literal "page", .param ⟨"lang", some .optional, none⟩]
  let u : Uri := ofSegments (front ++ [.param ⟨"rest", some .catchAll, none⟩])
  have hu : parsePattern "/{site:test.com}/page{/lang}{+rest}" = .ok u := by with_unfolding_all rfl
  have hfront : Valued Q front := by
    intro t ht
    have hmem : t = ⟨"site", none, some "test.com"⟩ ∨ t = ⟨"lang", some .optional, none⟩ := by
      simpa [front] using ht
    rcases hmem with rfl | rfl
    · exact Or.inr rfl
    · exact Or.inl rfl
  have hrest : ¬ Template.HasValue ⟨"rest", some .catchAll, none⟩ Q := by
    simp [Template.HasValue, Q, Params.get?, Assoc.lookup]
  obtain ⟨w, hw, hcatch, -⟩ :=
    (expand_and_render (.parsePattern hu) (some Q)).2 front _ [] rfl hfront hrest
  refine ⟨u, hu, w, (hcatch rfl).1, (hcatch rfl).2, ?_⟩
  have hval : (ofParts none front).expand (some Q)
      = .ok (ofSegments [.literal "test.com", .literal "page", .literal "de,en"]) := by
    with_unfolding_all rfl
  obtain rfl := Except.ok.inj (hw.symm.trans hval)
  decide +kernel

end Uri

end RouteTree
