import RouteTree.Proofs.Pattern
import RouteTree.Proofs.Text.Codec
import RouteTree.Uri

/-!
# Reading the text of a URI

The text of a URI that has no template left is a request path. This file says which components it is
read as:

* `Segment.written?` is what a segment is written as, behind its slash, and `components_pathText`
  reads the text of some segments: what each is written as is decoded on its own;
* `Segment.IsComponent` is what an expansion leaves of a pattern (`isComponent_of_expand`), and
  `components_of_isComponent` reads its text segment by segment.
-/

namespace RouteTree

/-! ## 1. Segments as they are written -/

namespace Segment

/-- What an expanded segment is written as, behind its slash. -/
def written? : Segment → Option String
  | literal text => some (Text.Percent.encodeComponent text)
  | reserved text => some (Text.Percent.encodeReserved text)
  | _ => none

/-- What a segment is read as, once it is written. -/
def read? (s : Segment) : Option String := s.written?.map Text.Percent.decode

/-- The segment is a component of a path. One that came out of a catch-all value holds no slash, since
    the value was cut there. -/
def IsComponent : Segment → Prop
  | literal _ => True
  | reserved text => '/' ∉ text.toList
  | _ => False

/-- A component is written without a slash of its own. -/
theorem IsComponent.written {s : Segment} (h : s.IsComponent) :
    ∃ text, s.written? = some text ∧ '/' ∉ text.toList := by
  cases s with
  | literal text =>
    refine ⟨_, rfl, ?_⟩
    rw [Text.Percent.encodeComponent, String.toList_ofList]
    exact Text.Percent.slash_not_mem_encode text.toList
  | reserved text =>
    refine ⟨_, rfl, fun hm => ?_⟩
    rw [Text.Percent.encodeReserved, String.toList_ofList] at hm
    exact h (Text.Percent.slash_mem_of_mem_encode hm).1
  | param t => exact h.elim
  | tag name => exact h.elim

/-- A literal is read as it was; so is a part of a catch-all value if it is written and read as
    itself. -/
theorem IsComponent.text?_eq_read?_iff {s : Segment} (h : s.IsComponent) : s.text? = s.read?
    ↔ ∀ text, s = .reserved text →
        Text.Percent.decode (Text.Percent.encodeReserved text) = text := by
  cases s with
  | literal text =>
    have hread : (literal text).read? = some text :=
      congrArg some (Text.Percent.decode_encodeComponent text)
    simp [text?, hread]
  | reserved text => simp [text?, read?, written?, eq_comm]
  | param t => exact h.elim
  | tag name => exact h.elim

end Segment

namespace Uri

/-! ## 2. The text of some segments -/

theorem toList_pathText {params : Params} : ∀ {segments : List Segment} {texts : List String},
    segments.map Segment.written? = texts.map some →
    (pathText .expanded params segments).toList = texts.flatMap fun text => '/' :: text.toList
  | [], [], _ => rfl
  | [], _ :: _, h => by cases h
  | _ :: _, [], h => by cases h
  | s :: segments, text :: texts, h => by
    obtain ⟨hs, hrest⟩ := List.cons.inj h
    have ih : (pathText .expanded params segments).toList
        = texts.flatMap fun text => '/' :: text.toList := toList_pathText hrest
    rw [List.flatMap_cons, ← ih]
    cases s with
    | literal t =>
      rw [pathText, String.toList_append, String.toList_append, Option.some.inj hs]
      rfl
    | reserved t =>
      rw [pathText, String.toList_append, String.toList_append, Option.some.inj hs]
      rfl
    | param t => cases hs
    | tag name => cases hs

theorem flatMap_slash (c : String) (f : String → List Char) : ∀ path : List String,
    (c :: path).flatMap (fun x => '/' :: f x) = '/' :: ['/'].intercalate ((c :: path).map f) := by
  intro path
  induction path generalizing c with
  | nil => simp
  | cons d path ih =>
    rw [List.flatMap_cons, ih d, List.map_cons, List.map_cons, List.map_cons,
      List.intercalate_cons_cons]
    simp

/-- **The text of some segments is read segment by segment**: as long as none of them is written with
    a slash of its own, each is decoded on its own. -/
theorem components_pathText {params : Params} {segments : List Segment} {texts : List String}
    (hne : texts ≠ []) (hw : segments.map Segment.written? = texts.map some)
    (hs : ∀ text ∈ texts, '/' ∉ text.toList) :
    Path.components (pathText .expanded params segments) = texts.map Text.Percent.decode := by
  cases texts with
  | nil => exact absurd rfl hne
  | cons text texts =>
    have hsplit : (['/'].intercalate ((text :: texts).map String.toList)).splitOn '/'
        = (text :: texts).map String.toList := by
      refine List.splitOn_intercalate '/' (fun piece hp => ?_) (by simp)
      obtain ⟨t, ht, rfl⟩ := List.mem_map.mp hp
      exact hs t ht
    rw [Path.components, Path.componentsOf, toList_pathText hw, flatMap_slash,
      Path.dropLeadingSlash, if_pos rfl, hsplit, List.map_map]
    rfl

theorem map_written? : ∀ {segments : List Segment}, (∀ s ∈ segments, s.IsComponent) →
    segments.map Segment.written? = (segments.filterMap Segment.written?).map some
  | [], _ => rfl
  | s :: segments, h => by
    obtain ⟨text, hs, -⟩ := (h s List.mem_cons_self).written
    have ih := map_written? fun x hx => h x (List.mem_cons_of_mem s hx)
    rw [List.map_cons, List.filterMap_cons, hs, List.map_cons, ← ih]

/-- Components are read back from the text they are written as. -/
theorem components_of_isComponent {params : Params} {segments : List Segment}
    (h : ∀ s ∈ segments, s.IsComponent) (hne : segments ≠ []) :
    Path.components (pathText .expanded params segments) = segments.filterMap Segment.read? := by
  have hw := map_written? h
  have hread : segments.filterMap Segment.read?
      = (segments.filterMap Segment.written?).map Text.Percent.decode := by
    rw [List.map_filterMap]
    rfl
  rw [hread]
  refine components_pathText (fun hnil => hne ?_) hw fun text htext => ?_
  · rw [hnil] at hw
    exact List.map_eq_nil_iff.mp hw
  · obtain ⟨s, hs, hsome⟩ := List.mem_filterMap.mp htext
    obtain ⟨t, ht, hslash⟩ := (h s hs).written
    obtain rfl : t = text := Option.some.inj (ht.symm.trans hsome)
    exact hslash

/-! ## 3. What an expansion leaves -/

theorem isComponent_catchAllSegments (value : String) :
    ∀ s ∈ catchAllSegments value, s.IsComponent := by
  intro s hs
  obtain ⟨piece, hp, rfl⟩ := List.mem_map.mp hs
  rw [Segment.IsComponent, String.toList_ofList]
  exact fun hm => (Path.mem_of_mem_splitOn hp hm).2 rfl

/-- **An expansion leaves components only.** -/
theorem isComponent_of_expandSegments {params : Params} : ∀ {segments out : List Segment},
    (∀ s ∈ segments, s.IsWritten) → expandSegments params segments = .ok out →
    ∀ s ∈ out, s.IsComponent
  | [], out, _, h => by
    cases h
    intro s hs
    cases hs
  | x :: rest, out, hw, h => by
    have ih : ∀ {below}, expandSegments params rest = .ok below → ∀ s ∈ below, s.IsComponent :=
      isComponent_of_expandSegments fun s hs => hw s (List.mem_cons_of_mem x hs)
    have ahead : ∀ (front : List Segment), (∀ s ∈ front, s.IsComponent) →
        (expandSegments params rest).map (front ++ ·) = .ok out → ∀ s ∈ out, s.IsComponent := by
      intro front hfront hmap s hs
      cases hr : expandSegments params rest with
      | error e =>
        rw [hr] at hmap
        cases hmap
      | ok below =>
        rw [hr] at hmap
        cases hmap
        rcases List.mem_append.mp hs with hs | hs
        · exact hfront s hs
        · exact ih hr s hs
    have one : ∀ text, ∀ s ∈ [Segment.literal text], s.IsComponent := by
      intro text s hs
      rw [List.mem_singleton.mp hs]
      trivial
    rcases hw x List.mem_cons_self with ⟨text, rfl⟩ | ⟨t, rfl⟩
    · rw [expandSegments] at h
      · exact ahead [.literal text] (one text) h
      · intro t ht
        cases ht
    · rw [expandSegments] at h
      split at h
      · exact ahead _ (isComponent_catchAllSegments _) h
      · exact ahead [.literal _] (one _) h
      · cases h
      · exact ih h
      · cases h
        intro s hs
        cases hs

section
variable {norm : Origin.Normalizer} {input : String}

/-- What a URI without templates has been read from. -/
theorem parse_cases {u : Uri} (h : parseBy norm input = .ok u) :
    ∃ origin path, splitOriginBy norm input = .ok (origin, path) ∧
      u = ofParts origin (plainSegments path) := by
  unfold parseBy at h
  split at h
  · cases h
  · rename_i origin path hsplit
    cases h
    exact ⟨origin, path, hsplit, rfl⟩

/-- A pattern that is read has been cut, and what stood behind its origin is a pattern. -/
theorem parsePattern_cases {u : Uri} (h : parsePatternBy norm input = .ok u) :
    ∃ origin path segments, splitOriginBy norm input = .ok (origin, path) ∧
      Pattern.parse (String.ofList path) = .ok segments ∧ u = ofParts origin segments := by
  unfold parsePatternBy at h
  split at h
  · cases h
  · rename_i origin path hsplit
    split at h
    · cases h
    · rename_i segments hp
      cases h
      exact ⟨origin, path, segments, hsplit, hp, rfl⟩

theorem parsePattern_of_split {origin : Option String} {path : List Char} {segments : List Segment}
    (hsplit : splitOriginBy norm input = .ok (origin, path))
    (hp : Pattern.parse (String.ofList path) = .ok segments) :
    parsePatternBy norm input = .ok (ofParts origin segments) := by
  rw [parsePatternBy, hsplit]
  dsimp only
  rw [hp]

end

theorem isWritten_of_parsePattern {pattern : String} {p : Uri} (h : parsePattern pattern = .ok p) :
    ∀ s ∈ p.segments, s.IsWritten := by
  obtain ⟨origin, path, segments, -, hp, rfl⟩ := parsePattern_cases h
  exact Pattern.isWritten_of_parse hp

/-- What an expansion keeps of the URI, and what it drops. -/
theorem expand_cases {p u : Uri} {params : Option Params} (h : p.expand params = .ok u) :
    ∃ out, expandSegments (params.getD p.params) p.segments = .ok out ∧ u = ofParts p.origin out := by
  unfold expand at h
  cases he : expandSegments (params.getD p.params) p.segments with
  | error e =>
    rw [he] at h
    cases h
  | ok out =>
    rw [he] at h
    cases h
    exact ⟨out, rfl, rfl⟩

theorem isComponent_of_expand {pattern : String} {p u : Uri} {params : Option Params}
    (hp : parsePattern pattern = .ok p) (he : p.expand params = .ok u) :
    ∀ s ∈ u.segments, s.IsComponent := by
  obtain ⟨out, ho, rfl⟩ := expand_cases he
  exact isComponent_of_expandSegments (isWritten_of_parsePattern hp) ho

theorem text_ofSegments (segments : List Segment) :
    (ofSegments segments).text = pathText .expanded [] segments := String.empty_append

end Uri

end RouteTree
