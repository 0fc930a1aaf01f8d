import RouteTree.Event
import RouteTree.Proofs.Uri.Reading

/-!
# Leading segments

A URI is compared with a path before its templates have values. This file says what the comparison
promises of the values they get later:

* `Segment.Admits` says which components a segment is compatible with, and `leads_cons_iff` that a path
  leads some segments if these admit its components one by one;
* `Segment.Stays` is a segment that an expansion replaces by one component, and by no other than the
  one it is pinned to; `expandSegments_stays` is that one step;
* `leads_of_expandSegments` goes down the path: what the expansion admits was admitted before;
* `leads_iff_prefix` is the comparison where there are no templates;
* `startsWithPath_sound` puts them together.
-/

namespace RouteTree

/-! ## 1. What a segment admits -/

namespace Segment

/-- The segment is compatible with this component: it is one with this text, or a template that is not
    pinned to another. -/
def Admits : Segment → String → Prop
  | literal text, component => text = component
  | reserved text, component => text = component
  | param t, component => ∀ value, t.fixed = some value → value = component
  | tag _, _ => False

/-- The segment is a component, one that came out of a catch-all value perhaps, and not a template. -/
def HasText : Segment → Prop
  | literal _ => True
  | reserved _ => True
  | _ => False

/-- Under these parameters an expansion puts one component in the place of the segment, and no value is
    bound to its name if it is pinned to one. -/
structure Stays (params : Params) (s : Segment) : Prop where
  present : s.isOptional = false
  single : s.isCatchAll = false
  unbound : ∀ t, s = .param t → t.fixed ≠ none → params.get? t.name = none

theorem HasText.text {s : Segment} (h : s.HasText) : ∃ text, s.text? = some text ∧
    ∀ component, s.Admits component ↔ text = component := by
  cases s with
  | literal text => exact ⟨text, rfl, fun _ => Iff.rfl⟩
  | reserved text => exact ⟨text, rfl, fun _ => Iff.rfl⟩
  | param t => exact h.elim
  | tag name => exact h.elim

end Segment

namespace Uri

theorem compatible_literal_iff (s : Segment) (component : String) :
    compatible s (.literal component) = true ↔ s.Admits component := by
  cases s with
  | literal text => simp [compatible, Segment.text?, Segment.Admits]
  | reserved text => simp [compatible, Segment.text?, Segment.Admits]
  | tag name => simp [compatible, Segment.text?, Segment.Admits]
  | param t => cases hf : t.fixed <;> simp [compatible, Segment.text?, Segment.Admits, hf]

theorem leads_nil (segments : List Segment) : leads segments [] = true := by
  cases segments <;> rfl

/-- **A path leads some segments if these admit its components one by one.** -/
theorem leads_cons_iff (s : Segment) (segments : List Segment) (component : String)
    (path : List String) :
    leads (s :: segments) ((component :: path).map .literal) = true ↔
      s.Admits component ∧ leads segments (path.map .literal) = true := by
  rw [List.map_cons, leads, Bool.and_eq_true, compatible_literal_iff]

/-- A path that is not empty is compared by its components. -/
theorem startsWithPath_eq {path : String} (h : path ≠ "") (u : Uri) :
    u.startsWithPath path = leads u.segments ((Path.components path).map .literal) := by
  rw [startsWithPath, plainSegments, if_neg fun hnil => h (String.toList_eq_nil_iff.mp hnil)]
  rfl

/-! ## 2. What an expansion keeps -/

/-- A template that stands for exactly one component has no modifier. -/
theorem modifier_of_stays {params : Params} {t : Template} (h : (Segment.param t).Stays params) :
    t.modifier = none := by
  have hopt : ¬ t.modifier = some .optional := of_decide_eq_false h.present
  have hall : ¬ t.modifier = some .catchAll := of_decide_eq_false h.single
  cases hm : t.modifier with
  | none => rfl
  | some m => cases m <;> contradiction

/-- **One segment that stays**: an expansion has one component in its place, and whatever this one
    admits the segment admitted before. -/
theorem expandSegments_stays {params : Params} {s : Segment} {rest out : List Segment}
    (hs : s.Stays params) (h : expandSegments params (s :: rest) = .ok out) :
    ∃ s' below, out = s' :: below ∧ expandSegments params rest = .ok below ∧
      ∀ component, s'.Admits component → s.Admits component := by
  have same : (expandSegments params rest).map (s :: ·) = .ok out →
      ∃ s' below, out = s' :: below ∧ expandSegments params rest = .ok below ∧
        ∀ component, s'.Admits component → s.Admits component := by
    intro hmap
    obtain ⟨below, hbelow, rfl⟩ := Attempt.ok_of_map hmap
    exact ⟨s, below, rfl, hbelow, fun _ hadmits => hadmits⟩
  cases s with
  | literal text => exact same h
  | reserved text => exact same h
  | tag name => exact same h
  | param t =>
    rw [expandSegments, modifier_of_stays hs] at h
    cases hv : resolve params t with
    | none =>
      rw [hv] at h
      cases h
    | some value =>
      rw [hv] at h
      obtain ⟨below, hbelow, rfl⟩ := Attempt.ok_of_map h
      refine ⟨.literal value, below, rfl, hbelow, ?_⟩
      -- the value is the one the template is pinned to, since no other is bound to its name
      rintro component rfl pinned hpinned
      have hunbound := hs.unbound t rfl (by simp [hpinned])
      rw [resolve, hunbound, hpinned] at hv
      exact Option.some.inj hv

/-- **A path that leads an expansion leads what was expanded**, if as many segments stay as the path has
    components. -/
theorem leads_of_expandSegments {params : Params} : ∀ {path : List String}
    {segments out : List Segment}, (∀ s ∈ segments.take path.length, s.Stays params) →
    expandSegments params segments = .ok out → leads out (path.map .literal) = true →
    leads segments (path.map .literal) = true
  | [], segments, _, _, _, _ => leads_nil segments
  | _ :: _, [], _, _, he, hl => by
    cases he
    cases hl
  | component :: path, s :: segments, out, hs, he, hl => by
    rw [List.length_cons, List.take_succ_cons] at hs
    obtain ⟨s', below, rfl, hbelow, hadmits⟩ := expandSegments_stays (hs s List.mem_cons_self) he
    rw [leads_cons_iff] at hl ⊢
    exact ⟨hadmits component hl.1, leads_of_expandSegments
      (fun x hx => hs x (List.mem_cons_of_mem s hx)) hbelow hl.2⟩

/-! ## 3. Paths without templates -/

/-- **Without templates the comparison is that of two lists of texts.** -/
theorem leads_iff_prefix : ∀ {segments : List Segment}, (∀ s ∈ segments, s.HasText) →
    ∀ path : List String, leads segments (path.map .literal) = true ↔
      path <+: segments.filterMap Segment.text?
  | segments, _, [] => by simp [leads_nil]
  | [], _, component :: path => by simp [leads]
  | s :: segments, h, component :: path => by
    have ih := leads_iff_prefix (fun x hx => h x (List.mem_cons_of_mem s hx)) path
    obtain ⟨text, htext, hadmits⟩ := (h s List.mem_cons_self).text
    rw [leads_cons_iff, ih, hadmits, List.filterMap_cons_some htext, List.cons_prefix_cons, eq_comm]

/-- **The comparison with a path rules out nothing that an expansion has.** Take any path that is not
    empty.

    * If as many segments of a URI stay as the path has components, and the path leads an expansion of
      the URI, then it leads the URI.
    * A URI without templates is led by the path exactly if the components of the path are the first
      texts of the URI. -/
theorem startsWithPath_sound {path : String} (hne : path ≠ "") :
    (∀ (u v : Uri) (params : Params),
      (∀ s ∈ u.segments.take (Path.components path).length, s.Stays params) →
      u.expand (some params) = .ok v → v.startsWithPath path = true →
      u.startsWithPath path = true) ∧
    ∀ u : Uri, (∀ s ∈ u.segments, s.HasText) →
      (u.startsWithPath path = true ↔
        Path.components path <+: u.segments.filterMap Segment.text?) := by
  refine ⟨fun u v params hs he hv => ?_, fun u htext => ?_⟩
  · obtain ⟨out, hout, rfl⟩ := expand_cases he
    rw [startsWithPath_eq hne] at hv ⊢
    exact leads_of_expandSegments hs hout hv
  · rw [startsWithPath_eq hne]
    exact leads_iff_prefix htext _

/-- A pinned template, an open one and a catch-all behind them. -/
theorem startsWithPath_sound_page :
    let u := ofSegments [.param ⟨"site", none, some "a b"⟩, .param (.named "page"),
      .param ⟨"rest", some .catchAll, none⟩]
    let params : Params := [("page", .single "x/y"), ("rest", .single "z")]
    ∃ v, u.expand (some params) = .ok v ∧ v.startsWithPath "/a%20b/x%2Fy" = true ∧
      u.startsWithPath "/a%20b/x%2Fy" = true ∧
      ["a b", "x/y"] <+: v.segments.filterMap Segment.text? := by
  intro u params
  have hpath : Path.components "/a%20b/x%2Fy" = ["a b", "x/y"] := by decide +kernel
  have hs : ∀ s ∈ u.segments.take (Path.components "/a%20b/x%2Fy").length, s.Stays params := by
    rw [hpath]
    intro s hs
    rcases List.mem_cons.mp hs with rfl | hs
    · refine ⟨rfl, rfl, ?_⟩
      rintro t ht -
      cases ht
      decide
    · obtain rfl := List.mem_singleton.mp hs
      refine ⟨rfl, rfl, ?_⟩
      rintro t ht hpinned
      cases ht
      exact absurd rfl hpinned
  let v := ofSegments [.literal "a b", .literal "x/y", .reserved "z"]
  have he : u.expand (some params) = .ok v := by with_unfolding_all rfl
  have htext : ∀ s ∈ v.segments, s.HasText := by
    intro s hs
    rcases List.mem_cons.mp hs with rfl | hs
    · trivial
    · rcases List.mem_cons.mp hs with rfl | hs
      · trivial
      · obtain rfl := List.mem_singleton.mp hs
        trivial
  have hv : v.startsWithPath "/a%20b/x%2Fy" = true := by decide +kernel
  have hne : "/a%20b/x%2Fy" ≠ "" := by decide
  obtain ⟨hsound, hexact⟩ := startsWithPath_sound hne
  have hprefix := (hexact v htext).mp hv
  rw [hpath] at hprefix
  exact ⟨v, he, hv, hsound u v params hs he hv, hprefix⟩

end Uri

end RouteTree
