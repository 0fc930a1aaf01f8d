import RouteTree.Proofs.Router.Greedy
import RouteTree.Proofs.Uri.Reading

/-!
# Expanding what a lookup bound

In a router with one route, what a lookup binds is enough to write the request down again. The proof
has the two halves of a round trip with a relation between them:

* `Takes` says which components the segments of a path take, and what they bind;
* `takes_of_walk` reads it off a walk down the tree of the path;
* `expand_of_takes` expands the path under what was bound, and `components_of_written` reads the text
  of the expansion;
* `expand_inverts_lookup` puts them together.
-/

namespace RouteTree

variable {V : Type}

/-! ## 1. Patterns that can be written down again -/

/-- The segments may all be absent. -/
def Droppable (segments : List Segment) : Prop :=
  ∀ s ∈ segments, s.isOptional = true ∨ s.isCatchAll = true

/-- Nothing follows a template that takes all that is left, and only templates that may be absent too
    follow one that may. -/
def Ordered (segments : List Segment) : Prop :=
  segments.Pairwise fun s later => s.isCatchAll = false ∧
    (s.isOptional = true → later.isOptional = true ∨ later.isCatchAll = true)

/-- The names of a path. -/
def namesOf (segments : List Segment) : List String := segments.filterMap Node.nameOf

/-- What a pattern needs to be written down again from what it binds. -/
structure Invertible (segments : List Segment) : Prop where
  distinct : (namesOf segments).Nodup
  listing : Params.listingKey ∉ namesOf segments
  ordered : Ordered segments
  unpinned : ∀ t, .param t ∈ segments → t.modifier ≠ none → t.fixed = none

theorem ordered_cons {s : Segment} {rest : List Segment} (h : Ordered (s :: rest)) :
    (s.isOptional = true → Droppable rest) ∧ (s.isCatchAll = true → rest = []) ∧ Ordered rest := by
  obtain ⟨hs, hrest⟩ := List.pairwise_cons.mp h
  refine ⟨fun ho x hx => (hs x hx).2 ho, fun hc => ?_, hrest⟩
  cases rest with
  | nil => rfl
  | cons x rest =>
    have := (hs x List.mem_cons_self).1
    rw [hc] at this
    cases this

theorem cut_of_ordered : ∀ {segments : List Segment}, Ordered segments →
    Node.cutAfterCatchAll segments = segments
  | [], _ => rfl
  | s :: rest, h => by
    obtain ⟨-, hc, hrest⟩ := ordered_cons h
    unfold Node.cutAfterCatchAll
    by_cases hs : s.isCatchAll = true
    · rw [if_pos hs, hc hs]
    · rw [if_neg hs, cut_of_ordered hrest]

/-- **What the segments of a path take.** The rest of a path that may be absent takes nothing. -/
inductive Takes : List Segment → List String → List (String × ParamValue) → Prop where
  | stop {rest} : Droppable rest → Takes rest [] []
  | literal {text rest path bound} : Takes rest path bound →
      Takes (.literal text :: rest) (text :: path) bound
  | one {t c rest path bound} : t.isCatchAll = false → Takes rest path bound →
      Takes (.param t :: rest) (c :: path) ((t.name, .single c) :: bound)
  | all {t c path} : t.isCatchAll = true →
      Takes [.param t] (c :: path) [(t.name, .single (Node.restText (c :: path)))]

/-! ## 2. From the walk -/

namespace Node

/-- The child at the head of a path. -/
def branch (v : V) (s : Segment) (rest : List Segment) : Node V :=
  (fresh s v (build v rest)).namedBy s

theorem build_edges (v : V) (s : Segment) (rest : List Segment) :
    (build v (s :: rest)).edges = [(s.key, branch v s rest)] := by
  rw [build]
  split <;> rfl

theorem build_loops (v : V) : ∀ segments : List Segment, (build v segments).loops = false
  | [] => rfl
  | s :: rest => by
    rw [build]
    split <;> rfl

theorem droppable_of_build_value (v : V) {segments : List Segment} (h : Ordered segments)
    (hv : (build v segments).value.isSome = true) : Droppable segments := by
  cases segments with
  | nil =>
    intro s hs
    cases hs
  | cons s rest =>
    rw [build] at hv
    split at hv
    · rename_i ho
      intro x hx
      rcases List.mem_cons.mp hx with rfl | hx
      · exact Or.inl ho
      · exact (ordered_cons h).1 ho x hx
    · cases hv

/-- A node with the one branch of a path below it. It has a value only if all of the path may be
    absent. -/
structure Chain (n : Node V) (v : V) (segments : List Segment) : Prop where
  edges : n.edges = (build v segments).edges
  loops : n.loops = false
  value : n.value.isSome = true → Droppable segments

theorem chain_build (v : V) {segments : List Segment} (h : Ordered segments) :
    Chain (build v segments) v segments :=
  ⟨rfl, build_loops v segments, droppable_of_build_value v h⟩

section
variable {n : Node V} {v : V} {s : Segment} {rest : List Segment}

theorem Chain.child? (h : Chain n v (s :: rest)) (k : Key) :
    n.child? k = if k = s.key then some (branch v s rest) else none := by
  rw [Node.child?, h.edges, build_edges, Assoc.lookup_cons, Assoc.lookup_nil]

theorem Chain.below (ho : Ordered (s :: rest)) (hs : s.isCatchAll = false) :
    Chain (branch v s rest) v rest := by
  obtain ⟨hopt, -, hrest⟩ := ordered_cons ho
  rw [branch, namedBy_eq_renamed, fresh, hs]
  by_cases h : s.isOptional = true
  · rw [if_neg Bool.false_ne_true, if_pos h]
    exact ⟨rfl, build_loops v rest, fun _ => hopt h⟩
  · rw [if_neg Bool.false_ne_true, if_neg h]
    exact ⟨rfl, build_loops v rest, droppable_of_build_value v hrest⟩

/-- Where a node with one child sends a component. -/
theorem Chain.turn_cases (h : Chain n v (s :: rest)) (c : String) :
    n.turn c = .nowhere ∨
    (n.turn c = .child (branch v s rest) ∧ (s.key = .exact c ∨ s.key = .wild)) ∨
    (n.turn c = .rest (branch v s rest) ∧ s.key = .catchAll) := by
  rw [turn_of_not_loops h.loops, h.child?, h.child?, h.child?]
  by_cases hx : s.key = .exact c
  · rw [if_pos hx.symm]
    exact Or.inr (Or.inl ⟨rfl, Or.inl hx⟩)
  · rw [if_neg (Ne.symm hx)]
    dsimp only
    by_cases hc : c = ""
    · exact Or.inl (if_pos hc)
    · rw [if_neg hc]
      by_cases hw : s.key = .wild
      · rw [if_pos hw.symm]
        exact Or.inr (Or.inl ⟨rfl, Or.inr hw⟩)
      · rw [if_neg (Ne.symm hw)]
        dsimp only
        by_cases ha : s.key = .catchAll
        · rw [if_pos ha.symm]
          exact Or.inr (Or.inr ⟨rfl, ha⟩)
        · rw [if_neg (Ne.symm ha)]
          exact Or.inl rfl

end

/-- The end of a path sends no component on. -/
theorem Chain.turn_nil {n : Node V} {v : V} (h : Chain n v []) (c : String) :
    n.turn c = .nowhere := by
  have hc : ∀ k, n.child? k = none := fun k => by
    rw [Node.child?, h.edges]
    rfl
  rw [turn_of_not_loops h.loops, hc, hc, hc]
  dsimp only
  split <;> rfl

/-- A walk that goes nowhere ends without a value. -/
theorem turn_ne_nowhere {n : Node V} {params : Params} {c : String} {rest : List String}
    (h : (n.walk params (c :: rest)).value.isSome = true) : n.turn c ≠ .nowhere := by
  intro ht
  rw [walk, ht] at h
  cases h

theorem walk_of_child {n child : Node V} {c : String} (ht : n.turn c = .child child)
    (params : Params) (rest : List String) :
    (n.walk params (c :: rest)).value = (child.walk (child.bindTo c params) rest).value ∧
      (n.walk params (c :: rest)).params = (child.walk (child.bindTo c params) rest).params := by
  rw [walk, ht]
  exact ⟨rfl, rfl⟩

theorem bindTo_named {n : Node V} {name : String} (h : n.name = some name) (text : String)
    (params : Params) : n.bindTo text params = params.set name (.single text) := by
  rw [bindTo, h]

theorem branch_name (v : V) (s : Segment) (rest : List Segment) :
    (branch v s rest).name = nameOf s := by
  have hn : (fresh s v (build v rest)).name = none := by
    unfold fresh
    split
    · rfl
    · split
      · exact build_name v rest
      · exact build_name v rest
  rw [branch, namedBy_eq_renamed]
  show (nameOf s).or (fresh s v (build v rest)).name = nameOf s
  rw [hn, Option.or_none]

/-- **A walk that ends at a value takes the whole request**, and binds what the path took. -/
theorem takes_of_walk {v : V} : ∀ {segments : List Segment} {n : Node V} {path : List String}
    (params : Params), (∀ s ∈ segments, s.IsWritten) → Ordered segments → Chain n v segments →
    (n.walk params path).value.isSome = true → ∃ bound, Takes segments path bound ∧
      (n.walk params path).params = params.merge bound
  | segments, n, [], params, _, _, hn, h => ⟨[], .stop (hn.value h), rfl⟩
  | [], n, c :: path, params, _, _, hn, h => absurd (hn.turn_nil c) (turn_ne_nowhere h)
  | s :: rest, n, c :: path, params, hw, ho, hn, h => by
    have hrest : ∀ x ∈ rest, x.IsWritten := fun x hx => hw x (List.mem_cons_of_mem s hx)
    rcases hn.turn_cases c with ht | ⟨ht, hkey⟩ | ⟨ht, hkey⟩
    · exact absurd ht (turn_ne_nowhere h)
    · -- one component, by a literal or by a template
      have hs : s.isCatchAll = false := by
        refine Bool.eq_false_iff.mpr fun hc => ?_
        rw [Segment.key_of_isCatchAll hc] at hkey
        rcases hkey with hkey | hkey <;> cases hkey
      obtain ⟨hv, hp⟩ := walk_of_child ht params path
      rw [hv] at h
      obtain ⟨bound, htakes, hb⟩ := takes_of_walk _ hrest (ordered_cons ho).2.2
        (Chain.below ho hs) h
      rcases hw s List.mem_cons_self with ⟨text, rfl⟩ | ⟨t, rfl⟩
      · obtain rfl : text = c := by simpa [Segment.key] using hkey
        refine ⟨bound, .literal htakes, ?_⟩
        rw [hp, hb, bindTo, branch_name]
        rfl
      · refine ⟨_, .one hs htakes, ?_⟩
        rw [hp, hb, bindTo_named (branch_name v (.param t) rest)]
        rfl
    · -- all that is left
      rcases hw s List.mem_cons_self with ⟨text, rfl⟩ | ⟨t, rfl⟩
      · cases hkey
      · have hs : t.isCatchAll = true := by
          refine Classical.byContradiction fun hc => ?_
          exact Segment.key_ne_catchAll (s := .param t) (Bool.eq_false_iff.mpr hc) hkey
        obtain rfl := (ordered_cons ho).2.1 hs
        refine ⟨_, .all hs, ?_⟩
        rw [walk, ht]
        show (branch v (.param t) []).bindTo (restText (c :: path)) params = _
        rw [bindTo_named (branch_name v (.param t) [])]
        rfl

end Node

/-! ## 3. What is bound -/

/-- A path binds some of its names, in their order. -/
theorem names_of_takes {segments : List Segment} {path : List String}
    {bound : List (String × ParamValue)} (h : Takes segments path bound) :
    (bound.map Prod.fst).Sublist (namesOf segments) := by
  induction h with
  | stop _ => exact List.nil_sublist _
  | literal _ ih => exact ih
  | one _ _ ih => exact ih.cons_cons _
  | all _ => exact List.Sublist.refl _

theorem mem_namesOf {segments : List Segment} {t : Template} (h : .param t ∈ segments) :
    t.name ∈ namesOf segments := List.mem_filterMap.mpr ⟨.param t, h, rfl⟩

/-! ## 4. The expansion -/

/-- The segments are written as these components are. -/
def Written (segments : List Segment) (path : List String) : Prop :=
  segments.map Segment.written? = path.map fun c => some (Text.Percent.encodeComponent c)

namespace Uri

/-- Encoded components are read back from the text they make with slashes between them. -/
theorem split_encoded {path : List String} (h : path ≠ []) :
    (['/'].intercalate (path.map fun c => (Text.Percent.encodeComponent c).toList)).splitOn '/'
      = path.map fun c => (Text.Percent.encodeComponent c).toList := by
  refine List.splitOn_intercalate '/' (fun p hp => ?_) (by simpa using h)
  obtain ⟨c, -, rfl⟩ := List.mem_map.mp hp
  rw [Text.Percent.encodeComponent, String.toList_ofList]
  exact Text.Percent.slash_not_mem_encode c.toList

theorem toList_restText (path : List String) : (Node.restText path).toList
    = ['/'].intercalate (path.map fun c => (Text.Percent.encodeComponent c).toList) := by
  rw [Node.restText, String.toList_intercalate, List.map_map]
  rfl

/-- **A catch-all value is written as the components it was made of.** -/
theorem written_catchAllSegments {path : List String} (h : path ≠ []) :
    Written (catchAllSegments (Node.restText path)) path := by
  rw [Written, catchAllSegments, toList_restText, split_encoded h, List.map_map, List.map_map]
  refine List.map_congr_left fun c _ => ?_
  simp [Segment.written?, Text.Percent.encodeReserved_encodeComponent]

/-- What may be absent and is not bound is left out. -/
theorem expand_droppable {params : Params} : ∀ {segments : List Segment}, Droppable segments →
    (∀ s ∈ segments, s.IsWritten) → (∀ t, .param t ∈ segments → resolve params t = none) →
    expandSegments params segments = .ok []
  | [], _, _, _ => rfl
  | s :: rest, hd, hw, hr => by
    have hdrest : Droppable rest := fun x hx => hd x (List.mem_cons_of_mem s hx)
    have ih := expand_droppable hdrest (fun x hx => hw x (List.mem_cons_of_mem s hx))
      (fun t ht => hr t (List.mem_cons_of_mem s ht))
    have hs := hd s List.mem_cons_self
    rcases hw s List.mem_cons_self with ⟨text, rfl⟩ | ⟨t, rfl⟩
    · rcases hs with hs | hs <;> cases hs
    · have hnone := hr t List.mem_cons_self
      simp only [Segment.isOptional, Segment.isCatchAll, Template.isOptional, Template.isCatchAll,
        decide_eq_true_eq] at hs
      rw [expandSegments, hnone]
      rcases hs with hs | hs
      · rw [hs]
        exact ih
      · rw [hs]

/-- **A path that is expanded under what it bound is written as the request it took.** -/
theorem expand_of_takes {params : Params} {segments : List Segment} {path : List String}
    {bound : List (String × ParamValue)} (h : Takes segments path bound)
    (hw : ∀ s ∈ segments, s.IsWritten) (hd : (namesOf segments).Nodup)
    (hu : ∀ t, .param t ∈ segments → t.modifier ≠ none → t.fixed = none)
    (hb : ∀ name value, (name, value) ∈ bound → params.get? name = some value)
    (hn : ∀ name ∈ namesOf segments, name ∉ bound.map Prod.fst → params.get? name = none) :
    ∃ out, expandSegments params segments = .ok out ∧ Written out path := by
  induction h with
  | @stop rest hdrop =>
    refine ⟨[], expand_droppable hdrop hw fun t ht => ?_, rfl⟩
    have hm : t.modifier ≠ none := by
      intro hm
      have := hdrop (.param t) ht
      simp [Segment.isOptional, Segment.isCatchAll, Template.isOptional, Template.isCatchAll, hm]
        at this
    rw [resolve, hn t.name (mem_namesOf ht) List.not_mem_nil, hu t ht hm]
    rfl
  | @literal text rest path bound _ ih =>
    obtain ⟨out, he, hout⟩ := ih (fun x hx => hw x (List.mem_cons_of_mem _ hx)) hd
      (fun t ht => hu t (List.mem_cons_of_mem _ ht)) hb hn
    refine ⟨.literal text :: out, ?_, ?_⟩
    · rw [expandSegments, he]
      · rfl
      · intro t ht
        cases ht
    · exact congrArg (some (Text.Percent.encodeComponent text) :: ·) hout
  | @one t c rest path bound hc _ ih =>
    obtain ⟨hfresh, hdrest⟩ := List.nodup_cons.mp
      (show (t.name :: namesOf rest).Nodup from hd)
    have hres : resolve params t = some c := by
      rw [resolve, hb t.name (.single c) List.mem_cons_self]
      rfl
    obtain ⟨out, he, hout⟩ := ih (fun x hx => hw x (List.mem_cons_of_mem _ hx)) hdrest
      (fun u hu' => hu u (List.mem_cons_of_mem _ hu'))
      (fun name value hmem => hb name value (List.mem_cons_of_mem _ hmem))
      (fun name hname hnot => hn name (List.mem_cons_of_mem t.name hname) fun hmem => by
        rcases List.mem_cons.mp hmem with rfl | hmem
        · exact hfresh hname
        · exact hnot hmem)
    refine ⟨.literal c :: out, ?_, ?_⟩
    · rw [expandSegments, hres, he]
      cases hm : t.modifier with
      | none => rfl
      | some m =>
        cases m with
        | optional => rfl
        | catchAll => simp [Template.isCatchAll, hm] at hc
    · exact congrArg (some (Text.Percent.encodeComponent c) :: ·) hout
  | @all t c path hc =>
    have hres : resolve params t = some (Node.restText (c :: path)) := by
      rw [resolve, hb t.name _ List.mem_cons_self]
      rfl
    have hm : t.modifier = some .catchAll := by simpa [Template.isCatchAll] using hc
    refine ⟨catchAllSegments (Node.restText (c :: path)), ?_,
      written_catchAllSegments (List.cons_ne_nil c path)⟩
    rw [expandSegments, hres, hm, expandSegments]
    show Except.ok (_ ++ []) = _
    rw [List.append_nil]

/-! ## 5. The text of the expansion -/

/-- **The text of an expansion is read back** as the components it was written from. -/
theorem components_of_written {segments : List Segment} {path : List String} (hne : path ≠ [])
    (h : Written segments path) : Path.components (pathText .expanded [] segments) = path := by
  have hw : segments.map Segment.written?
      = (path.map Text.Percent.encodeComponent).map some := by
    rw [List.map_map]
    exact h
  rw [components_pathText (by simpa using hne) hw, List.map_map]
  · refine (List.map_congr_left fun c _ => ?_).trans (List.map_id _)
    exact Text.Percent.decode_encodeComponent c
  · intro text ht
    obtain ⟨c, -, rfl⟩ := List.mem_map.mp ht
    rw [Text.Percent.encodeComponent, String.toList_ofList]
    exact Text.Percent.slash_not_mem_encode c.toList

/-! ## 6. The round trip -/

/-- A pattern has no origin in front of it. -/
theorem splitOrigin_of_parse {pattern : String} {segments : List Segment}
    (h : Pattern.parse pattern = .ok segments) (norm : Origin.Normalizer) :
    splitOriginBy norm pattern = .ok (none, pattern.toList) := by
  have hs : splitScheme? pattern.toList = none := by
    have hp := Pattern.parseChars_of_parse h
    cases hl : pattern.toList with
    | nil => rfl
    | cons c cs =>
      rw [hl] at hp
      unfold splitScheme?
      split
      · rfl
      · rcases Pattern.head_of_parseChars hp with rfl | rfl <;> simp
  rw [splitOriginBy, hs]

theorem parsePattern_of_parse {pattern : String} {segments : List Segment}
    (h : Pattern.parse pattern = .ok segments) :
    parsePattern pattern = .ok (ofSegments segments) := by
  refine parsePattern_of_split (splitOrigin_of_parse h Origin.normalize) ?_
  rw [String.ofList_toList, h]

end Uri

namespace Router

theorem outcome_insertPattern_empty {pattern : String} {segments : List Segment}
    (h : Pattern.parse pattern = .ok segments) (v : V) :
    (empty.insertPattern pattern v).outcome
      = .ok ⟨Node.build v (Node.cutAfterCatchAll segments)⟩ := by
  rw [outcome_insertPattern, h]
  show (empty.insert segments v).outcome = _
  rw [outcome_insert]
  show (Node.empty.extend v _).map _ = _
  rw [Node.extend_empty]
  rfl

variable [RouteValue V]

theorem result_of_lookup {r : Router V} {path : List String} {m : RouteMatch V}
    (h : (r.lookup path).value = some m) : m = (r.root.walk [] path).result path := by
  unfold lookup at h
  dsimp only at h
  split at h
  · cases h
  · split at h
    · cases h
      rfl
    · cases h

theorem get?_result_params (w : Walk V) (path : List String) {name : String}
    (h : name ≠ Params.listingKey) : (w.result path).params.get? name = w.params.get? name := by
  unfold Walk.result
  dsimp only
  split
  · exact Params.get?_set_of_ne h _ _
  · rfl

/-- **Expanding inverts looking up.** In a router with the one route of a pattern, take any request
    with at least one component that is found with a value. Expanding the pattern under the parameters
    that were bound succeeds, and the text of the expansion is read as the components of the
    request. -/
theorem expand_inverts_lookup {pattern : String} {segments : List Segment}
    (hparse : Pattern.parse pattern = .ok segments) (h : Invertible segments) (v : V) :
    ∃ r u, (empty.insertPattern pattern v).outcome = .ok r ∧ Uri.parsePattern pattern = .ok u ∧
      ∀ path m, path ≠ [] → (r.lookup path).value = some m → m.value.isSome = true →
        ∃ e, u.expand (some m.params) = .ok e ∧ Path.components e.text = path := by
  refine ⟨⟨Node.build v segments⟩, Uri.ofSegments segments, ?_, Uri.parsePattern_of_parse hparse, ?_⟩
  · rw [outcome_insertPattern_empty hparse, cut_of_ordered h.ordered]
  · intro path m hne hm hv
    have hw := Pattern.isWritten_of_parse hparse
    obtain rfl := result_of_lookup hm
    obtain ⟨bound, htakes, hparams⟩ :=
      Node.takes_of_walk [] hw h.ordered (Node.chain_build v h.ordered) hv
    have hsub := names_of_takes htakes
    have hget : ∀ name ∈ namesOf segments,
        (((Node.build v segments).walk [] path).result path).params.get? name
          = (Params.merge [] bound).get? name := fun name hname => by
      rw [get?_result_params _ path fun he => h.listing (he ▸ hname), hparams]
    obtain ⟨out, he, hout⟩ := Uri.expand_of_takes htakes hw h.distinct h.unpinned
      (fun name value hmem => by
        rw [hget name (hsub.subset (List.mem_map_of_mem hmem))]
        exact Params.get?_merge_of_mem [] (h.distinct.sublist hsub) hmem)
      (fun name hname hnot => by
        rw [hget name hname]
        exact Params.get?_merge_of_not_mem [] hnot)
    refine ⟨Uri.ofSegments out, ?_, ?_⟩
    · rw [Uri.expand]
      show (Uri.expandSegments (((Node.build v segments).walk [] path).result path).params
        segments).map _ = _
      rw [he]
      rfl
    · rw [Uri.text_ofSegments, Uri.components_of_written hne hout]

/-- A pattern with a template of each kind, and a request that binds them all. -/
theorem expand_inverts_lookup_page :
    let request := ["en.wikipedia.org", "page", "AC/DC", "a b", "50%"]
    ∃ r u, (empty.insertPattern "/{site}/page{/title}{+rest}" "page").outcome = .ok r ∧
      Uri.parsePattern "/{site}/page{/title}{+rest}" = .ok u ∧
      (∀ path m, path ≠ [] → (r.lookup path).value = some m → m.value.isSome = true →
        ∃ e, u.expand (some m.params) = .ok e ∧ Path.components e.text = path) ∧
      ∃ m e, (r.lookup request).value = some m ∧ m.value = some "page" ∧
        u.expand (some m.params) = .ok e ∧
        e.text = "/en.wikipedia.org/page/AC%2FDC/a%20b/50%25" ∧ Path.components e.text = request := by
  intro request
  let segments : List Segment := [.param ⟨"site", none, none⟩, .literal "page",
    .param ⟨"title", some .optional, none⟩, .param ⟨"rest", some .catchAll, none⟩]
  have hparse : Pattern.parse "/{site}/page{/title}{+rest}" = .ok segments := by
    with_unfolding_all rfl
  have hinv : Invertible segments := by
    refine ⟨by decide, by decide, ?_, by simp [segments]⟩
    simp [segments, Ordered, Segment.isOptional, Segment.isCatchAll, Template.isOptional,
      Template.isCatchAll]
  obtain ⟨r, u, hr, hu, hall⟩ := expand_inverts_lookup hparse hinv "page"
  obtain rfl : (⟨Node.build "page" segments⟩ : Router String) = r :=
    Except.ok.inj ((outcome_insertPattern_empty hparse "page").symm.trans hr)
  obtain rfl : Uri.ofSegments segments = u :=
    Except.ok.inj ((Uri.parsePattern_of_parse hparse).symm.trans hu)
  obtain ⟨m, hm, hvalue, htext⟩ : ∃ m,
      ((⟨Node.build "page" segments⟩ : Router String).lookup request).value = some m ∧
        m.value = some "page" ∧ ((Uri.ofSegments segments).expand (some m.params)).map Uri.text
          = .ok "/en.wikipedia.org/page/AC%2FDC/a%20b/50%25" :=
    ⟨_, by with_unfolding_all rfl, by with_unfolding_all rfl, by with_unfolding_all rfl⟩
  obtain ⟨e, he, hback⟩ := hall request m (List.cons_ne_nil _ _) hm (by rw [hvalue]; rfl)
  rw [he] at htext
  exact ⟨_, _, hr, hu, hall, m, e, hm, hvalue, he, Except.ok.inj htext, hback⟩

end Router

end RouteTree
