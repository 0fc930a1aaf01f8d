import RouteTree.Proofs.Pattern.Composition
import RouteTree.Proofs.Uri.Reading

/-!
# The full rendering of a pattern

In its full rendering a pattern keeps its templates, each pinned to the value it resolves to. Names and
values are encoded there like components, and a pattern takes them as they are written.

* `pathText_fullPattern`: the full rendering is the display of the pinned templates, once their names
  and values are encoded;
* `parse_fullPattern_iff`: it is read back exactly if there is nothing to encode and no empty literal
  stands in front of a template that takes all that is left.
-/

namespace RouteTree

/-! ## 1. Pinned and encoded templates -/

namespace Uri

open Text.Percent (encodeComponent isUnreserved)

/-- The segment with its template pinned to the value it resolves to. -/
def pinned (params : Params) : Segment → Segment
  | .param t => .param { t with fixed := resolve params t }
  | s => s

/-- The segment as a full rendering spells it: the name and the value of a template are encoded. -/
def spelled : Segment → Segment
  | .param t => .param ⟨encodeComponent t.name, t.modifier, t.fixed.map encodeComponent⟩
  | s => s

/-- The parameters bind single texts, none of them empty. -/
def BindsTexts (params : Params) : Prop :=
  ∀ name value, params.get? name = some value → ∃ text, value = .single text ∧ text ≠ ""

theorem bindsTexts_single {name text : String} (h : text ≠ "") :
    BindsTexts [(name, .single text)] := by
  intro other value hv
  unfold Params.get? Assoc.lookup at hv
  split at hv
  · cases hv
    exact ⟨text, rfl, h⟩
  · cases hv

theorem templateText_eq_display (t : Template) (value : Option String) :
    templateText t value
      = Template.display ⟨encodeComponent t.name, t.modifier, value.map encodeComponent⟩ := by
  cases value <;> rfl

/-- **The full rendering of a path is a display**: that of its segments, pinned and spelled. -/
theorem pathText_fullPattern {params : Params} : ∀ {ss : List Segment}, (∀ s ∈ ss, s.IsWritten) →
    pathText .fullPattern params ss
      = Segment.displayAll (ss.map fun s => spelled (pinned params s))
  | [], _ => rfl
  | s :: ss, h => by
    have ih : pathText .fullPattern params ss
        = Segment.displayAll (ss.map fun s => spelled (pinned params s)) :=
      pathText_fullPattern fun x hx => h x (List.mem_cons_of_mem s hx)
    have hjoin : ∀ x : Segment, Segment.displayAll (x :: ss.map fun s => spelled (pinned params s))
        = x.display ++ pathText .fullPattern params ss := fun x => by
      rw [ih, Segment.displayAll, List.map_cons, String.join_cons, ← Segment.displayAll]
    rw [List.map_cons, hjoin]
    rcases h s List.mem_cons_self with ⟨text, rfl⟩ | ⟨t, rfl⟩
    · rfl
    · have hpath : pathText .fullPattern params (.param t :: ss)
          = templateText t (resolve params t) ++ pathText .fullPattern params ss := by
        cases hr : resolve params t <;> simp [pathText, hr]
      rw [hpath, templateText_eq_display]
      rfl

/-! ## 2. Reading the full rendering -/

theorem resolve_ne_empty {params : Params} (hparams : BindsTexts params) {t : Template}
    (ht : t.fixed ≠ some "") : resolve params t ≠ some "" := by
  intro h
  unfold resolve at h
  cases hg : params.get? t.name with
  | none =>
    rw [hg] at h
    exact ht h
  | some value =>
    obtain ⟨text, rfl, hne⟩ := hparams _ _ hg
    rw [hg] at h
    exact hne (Option.some.inj h)

/-- Encoding keeps a template one that a pattern can stand for. -/
theorem isDeclared_spelled {params : Params} (hparams : BindsTexts params) {s : Segment}
    (h : Pattern.IsDeclared s) : Pattern.IsDeclared (spelled (pinned params s)) := by
  cases s with
  | literal text => trivial
  | reserved text => exact h.elim
  | tag name => exact h.elim
  | param t =>
    obtain ⟨d, ht, hbare⟩ := h
    have hname : t.name = d.name := by rw [ht]; rfl
    have hfixed : t.fixed ≠ some "" := by rw [ht]; exact d.value_ne_empty
    have hresolved := resolve_ne_empty hparams hfixed
    refine ⟨⟨encodeComponent t.name, (resolve params t).map encodeComponent, ?_, ?_, ?_, ?_⟩, rfl,
      fun hm c hc => ?_⟩
    · exact Text.Percent.encodeComponent_ne_empty (hname ▸ d.name_ne_empty)
    · exact Text.Percent.encodeComponent_plain
    · intro he
      obtain ⟨v, hv, hnil⟩ := Option.map_eq_some_iff.mp he
      refine Text.Percent.encodeComponent_ne_empty (fun hempty => hresolved ?_) hnil
      rw [hv, hempty]
    · intro v hv hmem
      obtain ⟨w, -, rfl⟩ := Option.map_eq_some_iff.mp hv
      exact (Text.Percent.encodeComponent_plain _ hmem).2.2.2 rfl
    · rcases Text.Percent.head?_encodeComponent c hc with rfl | hc
      · decide
      · exact hbare hm c (hname ▸ hc)

theorem isDeclared_of_parsePattern {pattern : String} {u : Uri} (h : parsePattern pattern = .ok u) :
    ∀ s ∈ u.segments, Pattern.IsDeclared s := by
  obtain ⟨origin, path, segments, -, hp, rfl⟩ := parsePattern_cases h
  exact Pattern.isDeclared_of_parse hp

/-- Spelling changes nothing of a pinned segment exactly if its name and its value need no encoding. -/
theorem spelled_pinned_eq_iff {params : Params} {s : Segment} :
    spelled (pinned params s) = pinned params s ↔ ∀ t, s = .param t →
      (∀ c ∈ t.name.toList, isUnreserved c = true) ∧
      ∀ value ∈ resolve params t, ∀ c ∈ value.toList, isUnreserved c = true := by
  cases s with
  | param t =>
    simp only [pinned, spelled, Segment.param.injEq, Template.mk.injEq, true_and, forall_eq',
      Text.Percent.encodeComponent_eq_self_iff]
    refine and_congr_right fun _ => ?_
    cases resolve params t with
    | none => simp
    | some value => simp [Text.Percent.encodeComponent_eq_self_iff]
  | literal text => simp [pinned, spelled]
  | reserved text => simp [pinned, spelled]
  | tag name => simp [pinned, spelled]

/-- Where no empty literal stands in front of a template for all that is left, none does once the
    templates are pinned and spelled. -/
theorem noEmptyBeforeRest_spelled_iff {params : Params} {ss : List Segment} :
    Pattern.NoEmptyBeforeRest (ss.map fun s => spelled (pinned params s))
      ↔ Pattern.NoEmptyBeforeRest ss := by
  have hempty : ∀ s, spelled (pinned params s) = .literal "" ↔ s = .literal "" := fun s => by
    cases s <;> simp [pinned, spelled]
  have hrest : ∀ s, (spelled (pinned params s)).isCatchAll = s.isCatchAll := fun s => by
    cases s <;> rfl
  rw [Pattern.noEmptyBeforeRest_iff_isChain, Pattern.noEmptyBeforeRest_iff_isChain, List.isChain_map]
  simp only [hempty, hrest]

/-- **A full rendering is read back exactly if there is nothing to encode in it.** Take a pattern without
    an origin, and parameters that bind single texts that are not empty. Its full rendering is a pattern.
    It stands for the same segments, each template pinned to the value it resolves to, if and only if
    names and values hold unreserved characters only, and no empty literal stands in front of a template
    that takes all that is left. -/
theorem parse_fullPattern_iff {pattern : String} {u : Uri} {params : Params}
    (hu : parsePattern pattern = .ok u) (ho : u.origin = none) (hparams : BindsTexts params) :
    (∃ segments, Pattern.parse (u.render .fullPattern (some params)).1 = .ok segments) ∧
    (Pattern.parse (u.render .fullPattern (some params)).1 = .ok (u.segments.map (pinned params)) ↔
      Pattern.NoEmptyBeforeRest u.segments ∧
      ∀ t, .param t ∈ u.segments → (∀ c ∈ t.name.toList, isUnreserved c = true) ∧
        ∀ value ∈ resolve params t, ∀ c ∈ value.toList, isUnreserved c = true) := by
  have htext : (u.render .fullPattern (some params)).1
      = Segment.displayAll (u.segments.map fun s => spelled (pinned params s)) := by
    rw [← pathText_fullPattern (isWritten_of_parsePattern hu)]
    show u.origin.getD "" ++ pathText .fullPattern params u.segments = _
    rw [ho]
    exact String.empty_append
  have hdeclared : ∀ s ∈ u.segments.map (fun s => spelled (pinned params s)),
      Pattern.IsDeclared s := by
    intro s hs
    obtain ⟨x, hx, rfl⟩ := List.mem_map.mp hs
    exact isDeclared_spelled hparams (isDeclared_of_parsePattern hu x hx)
  rw [htext]
  refine ⟨Pattern.parse_displayAll_isOk hdeclared, ?_⟩
  rw [Pattern.parse_displayAll_eq_ok_iff hdeclared (by simp), noEmptyBeforeRest_spelled_iff,
    List.map_inj_left]
  refine and_congr_right fun _ => ?_
  simp only [spelled_pinned_eq_iff]
  exact ⟨fun h t ht => h _ ht t rfl, fun h s hs t ht => h t (ht ▸ hs)⟩

/-- A pattern with a template of each kind, one of them pinned and one of them bound. -/
theorem parse_fullPattern_site :
    ∃ u, parsePattern "/{site:test.com}/v1/{title}{/lang}{+rest}" = .ok u ∧ u.origin = none ∧
      BindsTexts [("lang", .single "en-GB")] ∧
      Pattern.parse (u.render .fullPattern (some [("lang", .single "en-GB")])).1
        = .ok [.param ⟨"site", none, some "test.com"⟩, .literal "v1", .param ⟨"title", none, none⟩,
            .param ⟨"lang", some .optional, some "en-GB"⟩, .param ⟨"rest", some .catchAll, none⟩] := by
  have hu : parsePattern "/{site:test.com}/v1/{title}{/lang}{+rest}"
      = .ok (ofSegments [.param ⟨"site", none, some "test.com"⟩, .literal "v1",
          .param ⟨"title", none, none⟩, .param ⟨"lang", some .optional, none⟩,
          .param ⟨"rest", some .catchAll, none⟩]) := by with_unfolding_all rfl
  have hparams : BindsTexts [("lang", .single "en-GB")] := bindsTexts_single (by decide)
  refine ⟨_, hu, rfl, hparams, (parse_fullPattern_iff hu rfl hparams).2.mpr ⟨?_, ?_⟩⟩
  · intro s hs
    have hmem := hs.subset (List.mem_cons_self : Segment.literal "" ∈ [Segment.literal "", s])
    simp [ofSegments, ofParts] at hmem
  · intro t ht
    simp only [ofSegments, ofParts, List.mem_cons, Segment.param.injEq, reduceCtorEq,
      List.not_mem_nil, or_false, false_or] at ht
    -- whether a name or a value needs encoding is found out by encoding it
    rcases ht with rfl | rfl | rfl | rfl <;>
      exact spelled_pinned_eq_iff.mp (by decide +kernel) _ rfl

/-- A value with a space in it is written with an escape, and read back with the escape in it. -/
theorem fullPattern_keeps_escapes :
    ∃ u, parsePattern "/page/{title}" = .ok u ∧ u.origin = none ∧
      BindsTexts [("title", .single "a b")] ∧
      (u.render .fullPattern (some [("title", .single "a b")])).1 = "/page/{title:a%20b}" ∧
      Pattern.parse "/page/{title:a%20b}"
        = .ok [.literal "page", .param ⟨"title", none, some "a%20b"⟩] ∧
      u.segments.map (pinned [("title", .single "a b")])
        = [.literal "page", .param ⟨"title", none, some "a b"⟩] := by
  refine ⟨ofSegments [.literal "page", .param ⟨"title", none, none⟩], ?_, rfl, ?_, ?_, ?_, ?_⟩
  · with_unfolding_all rfl
  · exact bindsTexts_single (by decide)
  · decide +kernel
  · decide +kernel
  · decide +kernel

end Uri

end RouteTree
