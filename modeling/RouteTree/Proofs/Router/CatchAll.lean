import RouteTree.Proofs.Router.Expansion

/-!
# What a catch-all binds

A catch-all binds all components that are left as one text. This file proves that nothing is lost in
it, for any tree whatever:

* `Node.TakesRest` says where a walk leaves the components one by one and takes the rest, and
  `get?_of_takesRest` what it binds there;
* `encodeReserved_restText` and `pathText_of_written` write that text again, as a whole and in parts;
* `catchAll_reversible` reads the components back from it.
-/

namespace RouteTree

variable {V : Type}

/-! ## 1. Where a walk takes the rest -/

namespace Node

/-- From this node on, the walk of a request takes the components in front of index `i` one by one,
    and all others go to the catch-all child `child`. -/
inductive TakesRest : Node V → List String → Nat → Node V → Prop where
  | last {n child : Node V} {c : String} {rest : List String} :
      n.turn c = .rest child → TakesRest n (c :: rest) 0 child
  | step {n next child : Node V} {c : String} {rest : List String} {i : Nat} :
      n.turn c = .child next → TakesRest next rest i child → TakesRest n (c :: rest) (i + 1) child

theorem TakesRest.drop_ne_nil {n child : Node V} {path : List String} {i : Nat}
    (h : TakesRest n path i child) : path.drop i ≠ [] := by
  induction h with
  | last _ => exact List.cons_ne_nil _ _
  | step _ _ ih => exact ih

/-- **The catch-all child binds what is left**, and nothing is bound after it. -/
theorem get?_of_takesRest {n child : Node V} {path : List String} {i : Nat}
    (h : TakesRest n path i child) {name : String} (hn : child.name = some name) (params : Params) :
    (n.walk params path).params.get? name = some (.single (restText (path.drop i))) := by
  induction h generalizing params with
  | last ht =>
    rw [walk, ht]
    dsimp only
    rw [bindTo_named hn, Params.get?_set_self]
    rfl
  | step ht _ ih =>
    rw [walk, ht]
    exact ih hn _

end Node

/-! ## 2. The text it binds -/

namespace Text.Percent

/-- The value of a catch-all is written as it is: its components are encoded already, and the slashes
    between them may stay. -/
theorem encodeReserved_restText (path : List String) :
    encodeReserved (Node.restText path) = Node.restText path := by
  rw [encodeReserved, encode_of_all, String.ofList_toList]
  intro c hc
  rw [Uri.toList_restText] at hc
  cases path with
  | nil => cases hc
  | cons first path =>
    have hmem := List.mem_cons_of_mem '/' hc
    rw [← Uri.flatMap_slash] at hmem
    obtain ⟨component, -, hmem⟩ := List.mem_flatMap.mp hmem
    rcases List.mem_cons.mp hmem with rfl | hmem
    · decide
    · rw [encodeComponent, String.toList_ofList] at hmem
      rcases mem_encodeComponent hmem with rfl | h
      · decide
      · simp [isReservedSafe, h]

end Text.Percent

namespace Uri

theorem pathText_of_written {segments : List Segment} {path : List String} (hne : path ≠ [])
    (h : Written segments path) :
    pathText .expanded [] segments = "/" ++ Node.restText path := by
  have hw : segments.map Segment.written?
      = (path.map Text.Percent.encodeComponent).map some := by
    rw [List.map_map]
    exact h
  rw [← String.toList_inj, toList_pathText hw, String.toList_append, toList_restText]
  cases path with
  | nil => exact absurd rfl hne
  | cons c path =>
    rw [List.map_cons, flatMap_slash, ← List.map_cons, List.map_map]
    rfl

/-! ## 3. Reading it back -/

/-- The template that takes all that is left and binds `name`. -/
def catchAllOf (name : String) : Uri := ofSegments [.param ⟨name, some .catchAll, none⟩]

section
variable {params : Params} {name : String} {path : List String}

theorem expand_catchAllOf
    (h : params.get? name = some (.single (Node.restText path))) :
    (catchAllOf name).expand (some params)
      = .ok (ofSegments (catchAllSegments (Node.restText path))) := by
  have hres : resolve params ⟨name, some .catchAll, none⟩ = some (Node.restText path) := by
    rw [resolve, h]
    rfl
  have hexp : expandSegments params [.param ⟨name, some .catchAll, none⟩]
      = .ok (catchAllSegments (Node.restText path) ++ []) := by
    rw [expandSegments, hres]
    rfl
  rw [List.append_nil] at hexp
  show (expandSegments params [.param ⟨name, some .catchAll, none⟩]).map _ = _
  rw [hexp]
  rfl

theorem render_catchAllOf
    (h : params.get? name = some (.single (Node.restText path))) :
    ((catchAllOf name).render .expanded (some params)).1 = "/" ++ Node.restText path := by
  have hres : resolve params ⟨name, some .catchAll, none⟩ = some (Node.restText path) := by
    rw [resolve, h]
    rfl
  show "" ++ pathText .expanded params [.param ⟨name, some .catchAll, none⟩] = _
  simp only [pathText, hres]
  show "" ++ ("/" ++ Text.Percent.encodeReserved (Node.restText path) ++ "") = _
  rw [Text.Percent.encodeReserved_restText, String.append_empty, String.empty_append]

end

end Uri

namespace Router

/-- **Catch-all bindings are reversible.** In any tree, take a request that is found and whose walk
    gives the components from index `i` on to a catch-all child. Writing down the catch-all template of
    its name under the parameters that were bound gives one text, directly and by way of an
    expansion, and that text is read as exactly these components. -/
theorem catchAll_reversible [RouteValue V] (r : Router V) {path : List String} {i : Nat}
    {child : Node V} {name : String} {m : RouteMatch V} (ht : r.root.TakesRest path i child)
    (hn : child.name = some name) (hl : name ≠ Params.listingKey)
    (hm : (r.lookup path).value = some m) :
    ∃ e, (Uri.catchAllOf name).expand (some m.params) = .ok e ∧
      ((Uri.catchAllOf name).render .expanded (some m.params)).1 = e.text ∧
      Path.components e.text = path.drop i := by
  have hget : m.params.get? name = some (.single (Node.restText (path.drop i))) := by
    rw [result_of_lookup hm, get?_result_params _ path hl]
    exact Node.get?_of_takesRest ht hn []
  have hne := ht.drop_ne_nil
  have hw := Uri.written_catchAllSegments hne
  refine ⟨_, Uri.expand_catchAllOf hget, ?_, ?_⟩
  · rw [Uri.render_catchAllOf hget, Uri.text_ofSegments, Uri.pathText_of_written hne hw]
  · rw [Uri.text_ofSegments, Uri.components_of_written hne hw]

/-- A request with a slash, a percent sign, a letter outside ASCII and empty components in what is
    left. -/
theorem catchAll_reversible_files :
    let r : Router String :=
      ⟨Node.build "files" [.literal "files", .param ⟨"path", some .catchAll, none⟩]⟩
    let path := ["files", "a/b", "100%", "é", "", ""]
    ∃ m, (r.lookup path).value = some m ∧
      ∃ e, (Uri.catchAllOf "path").expand (some m.params) = .ok e ∧
        ((Uri.catchAllOf "path").render .expanded (some m.params)).1 = e.text ∧
        Path.components e.text = path.drop 1 := by
  intro r path
  have ht : r.root.TakesRest path 1 ((Node.looping "files").renamed (some "path")) :=
    .step rfl (.last rfl)
  exact ⟨_, rfl, catchAll_reversible r ht rfl (by decide) rfl⟩

end Router

end RouteTree
