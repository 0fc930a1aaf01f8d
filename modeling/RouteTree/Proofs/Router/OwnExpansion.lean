import RouteTree.Proofs.Router.Conflict
import RouteTree.Proofs.Router.Expansion
import RouteTree.Proofs.Router.Trail

/-!
# A route is found under its own expansion

A route is written down under values for its templates, and what is written is looked up in a router
with many other routes. It is found, unless another route stands in its way:

* `Spells` says which components a path stands for under some values, `Spells.first` what its first
  segment stands for, and `expand_of_spells` that its expansion is written as these;
* `Unshadowed` says that no other route takes one of these components in front of a template of the
  path, and `keyTurn_of_spells` is one step of the request along the path;
* `along_of_spells` is the whole way: where it ends, and what is bound on it;
* `own_expansion_found` puts them together.
-/

namespace RouteTree

open Segment (keysOf bindsAt)

variable {V : Type}

/-! ## 1. What a path stands for -/

/-- **The components a path stands for under some values.** A literal and a pinned template stand for
    their own text, where no value is given for the name of the latter. Any other template of one
    component stands for the value of its name, which is not empty, and a catch-all at the end for the
    components, the first of them not empty, that its value was put together from. -/
inductive Spells (values : Params) : List Segment → List String → Prop where
  | done : Spells values [] []
  | literal {text : String} {rest : List Segment} {path : List String} :
      Spells values rest path → Spells values (.literal text :: rest) (text :: path)
  | pinned {name text : String} {rest : List Segment} {path : List String} :
      values.get? name = none → Spells values rest path →
      Spells values (.param ⟨name, none, some text⟩ :: rest) (text :: path)
  | given {name c : String} {rest : List Segment} {path : List String} :
      values.get? name = some (.single c) → c ≠ "" → Spells values rest path →
      Spells values (.param ⟨name, none, none⟩ :: rest) (c :: path)
  | all {name c : String} {path : List String} :
      values.get? name = some (.single (Node.restText (c :: path))) → c ≠ "" →
      Spells values [.param ⟨name, some .catchAll, none⟩] (c :: path)

/-- The value of a template: the one given for its name, else the one it is pinned to. -/
def Template.valueIn (t : Template) (values : Params) : Option ParamValue :=
  (values.get? t.name).or (t.fixed.map .single)

theorem Spells.path_ne_nil {values : Params} {segments : List Segment} {path : List String}
    (h : Spells values segments path) (hne : segments ≠ []) : path ≠ [] := by
  cases h with
  | done => exact absurd rfl hne
  | literal _ => exact List.cons_ne_nil _ _
  | pinned _ _ => exact List.cons_ne_nil _ _
  | given _ _ _ => exact List.cons_ne_nil _ _
  | all _ _ => exact List.cons_ne_nil _ _

/-- **The first segment of a path** stands for one component, which is the value of a template, or is a
    catch-all at the end and stands for all components. -/
theorem Spells.first {values : Params} {s : Segment} {back : List Segment} {path : List String}
    (h : Spells values (s :: back) path) :
    (∃ c rest, path = c :: rest ∧ s.isCatchAll = false ∧ Spells values back rest ∧
      ∀ u, s = .param u → u.valueIn values = some (.single c)) ∨
    (∃ u, s = .param u ∧ s.key = .catchAll ∧ back = [] ∧ path ≠ [] ∧
      u.valueIn values = some (.single (Node.restText path))) := by
  cases h with
  | literal hrest => exact .inl ⟨_, _, rfl, rfl, hrest, fun _ hu => nomatch hu⟩
  | pinned hv hrest =>
    refine .inl ⟨_, _, rfl, rfl, hrest, fun u hu => ?_⟩
    cases hu
    rw [Template.valueIn, hv]
    rfl
  | given hv _ hrest =>
    refine .inl ⟨_, _, rfl, rfl, hrest, fun u hu => ?_⟩
    cases hu
    rw [Template.valueIn, hv]
    rfl
  | all hv _ =>
    refine .inr ⟨_, rfl, rfl, rfl, List.cons_ne_nil _ _, ?_⟩
    rw [Template.valueIn, hv]
    rfl

namespace Uri

/-- **A path is expanded under some values as the components it stands for.** -/
theorem expand_of_spells {values : Params} {segments : List Segment} {path : List String}
    (h : Spells values segments path) :
    ∃ out, expandSegments values segments = .ok out ∧ Written out path := by
  induction h with
  | done => exact ⟨[], rfl, rfl⟩
  | @literal text rest path _ ih =>
    obtain ⟨out, he, hw⟩ := ih
    refine ⟨.literal text :: out, ?_, congrArg (some (Text.Percent.encodeComponent text) :: ·) hw⟩
    rw [expandSegments, he]
    · rfl
    · intro t ht
      cases ht
  | @pinned name text rest path hv _ ih =>
    obtain ⟨out, he, hw⟩ := ih
    have hres : resolve values ⟨name, none, some text⟩ = some text := by
      rw [resolve, hv]
      rfl
    refine ⟨.literal text :: out, ?_, congrArg (some (Text.Percent.encodeComponent text) :: ·) hw⟩
    rw [expandSegments, hres, he]
    rfl
  | @given name c rest path hv _ _ ih =>
    obtain ⟨out, he, hw⟩ := ih
    have hres : resolve values ⟨name, none, none⟩ = some c := by
      rw [resolve, hv]
      rfl
    refine ⟨.literal c :: out, ?_, congrArg (some (Text.Percent.encodeComponent c) :: ·) hw⟩
    rw [expandSegments, hres, he]
    rfl
  | @all name c path hv _ =>
    have hres : resolve values ⟨name, some .catchAll, none⟩
        = some (Node.restText (c :: path)) := by
      rw [resolve, hv]
      rfl
    refine ⟨catchAllSegments (Node.restText (c :: path)) ++ [], ?_, ?_⟩
    · rw [expandSegments, hres]
      rfl
    · rw [List.append_nil]
      exact written_catchAllSegments (List.cons_ne_nil c path)

end Uri

/-! ## 2. Along the path -/

/-- **No other route stands in the way of the components.** Where the path has a template that is not
    pinned, no route goes on with a key of the component's own; where it has a catch-all, no route goes
    on with a template of one component either. -/
def Unshadowed (t : Table V) (P : List Segment) (path : List String) : Prop :=
  ∀ front u back c, P = front ++ .param u :: back → u.fixed = none → path[front.length]? = some c →
    t.passes (keysOf front ++ [.exact c]) = false ∧
      (u.isCatchAll = true → t.passes (keysOf front ++ [.wild]) = false)

/-- No name is bound at two places of the path, and none is that of listings. -/
structure NamedApart (t : Table V) (P : List Segment) : Prop where
  apart : ∀ L M name, L <+: keysOf P → M <+: keysOf P → t.names L name → t.names M name → L = M
  listing : ∀ L, L <+: keysOf P → ¬ t.names L Params.listingKey

theorem Table.passes_of_mem {t : Table V} {P : List Segment} {v : V} (h : (P, v) ∈ t)
    {K : List Key} (hK : K <+: keysOf P) : t.passes K = true :=
  List.any_eq_true.mpr ⟨(P, v), h, List.isPrefixOf_iff_prefix.mpr hK⟩

section
variable {t : Table V} {P : List Segment} {v : V} {values : Params} {path : List String}

/-- **One step along the path.** -/
theorem keyTurn_of_spells (hP : (P, v) ∈ t) (hu : Unshadowed t P path) {front back : List Segment}
    {taken rest : List String} {s : Segment} {c : String} (hsplit : P = front ++ s :: back)
    (hpath : path = taken ++ c :: rest) (hlen : taken.length = front.length)
    (h : Spells values (s :: back) (c :: rest)) :
    keyTurn t.passes (keysOf front) c = some s.key := by
  have hpass : t.passes (keysOf front ++ [s.key]) = true := by
    refine Table.passes_of_mem hP ⟨keysOf back, ?_⟩
    rw [hsplit, Segment.keysOf_append, Segment.keysOf_cons, List.append_assoc]
    rfl
  have hc : path[front.length]? = some c := by
    rw [hpath, ← hlen]
    simp
  cases h with
  | literal _ => exact if_pos hpass
  | pinned _ _ => exact if_pos hpass
  | given _ hne _ =>
    obtain ⟨hexact, -⟩ := hu front _ back c hsplit rfl hc
    rw [keyTurn, if_neg (Bool.eq_false_iff.mp hexact), if_neg hne]
    exact if_pos hpass
  | all _ hne =>
    obtain ⟨hexact, hwild⟩ := hu front _ _ c hsplit rfl hc
    rw [keyTurn, if_neg (Bool.eq_false_iff.mp hexact), if_neg hne,
      if_neg (Bool.eq_false_iff.mp (hwild rfl))]
    exact if_pos hpass

/-- The request goes along the path from `front` on: it ends at the end of the path, comes to keys of
    the path only, and takes the value of each template at the keys that lead to it. -/
structure Along (t : Table V) (P : List Segment) (values : Params) (front back : List Segment)
    (path : List String) : Prop where
  ends : reach t.passes (keysOf front) path = some (keysOf P)
  within : ∀ step ∈ trail t.passes (keysOf front) path, step.1 <+: keysOf P
  takes : ∀ u, .param u ∈ back → ∃ L text, (L, text) ∈ trail t.passes (keysOf front) path ∧
    bindsAt P L = some u.name ∧ u.valueIn values = some (.single text)

/-- One more step of one component. -/
theorem Along.cons {front back : List Segment} {s : Segment} {c : String} {rest : List String}
    (hsplit : P = front ++ s :: back) (hs : s.isCatchAll = false)
    (hk : keyTurn t.passes (keysOf front) c = some s.key)
    (hval : ∀ u, s = .param u → u.valueIn values = some (.single c))
    (h : Along t P values (front ++ [s]) back rest) :
    Along t P values front (s :: back) (c :: rest) := by
  have hne := Segment.key_ne_catchAll hs
  have hkeys : keysOf (front ++ [s]) = keysOf front ++ [s.key] := Segment.keysOf_append front [s]
  have hreach : reach t.passes (keysOf front) (c :: rest)
      = reach t.passes (keysOf (front ++ [s])) rest := by
    rw [reach_cons, hk, hkeys]
    exact if_neg hne
  have htrail : trail t.passes (keysOf front) (c :: rest)
      = (keysOf (front ++ [s]), c) :: trail t.passes (keysOf (front ++ [s])) rest := by
    rw [trail, hk, hkeys]
    exact if_neg hne
  refine ⟨hreach.trans h.ends, fun step hstep => ?_, fun u hmem => ?_⟩
  · rw [htrail] at hstep
    rcases List.mem_cons.mp hstep with rfl | hstep
    · exact ⟨keysOf back, by rw [← Segment.keysOf_append, hsplit, List.append_cons front s back]⟩
    · exact h.within step hstep
  · rw [htrail]
    rcases List.mem_cons.mp hmem with rfl | hmem
    · refine ⟨_, c, List.mem_cons_self, ?_, hval u rfl⟩
      exact (Segment.bindsAt_iff P u.name _).mpr ⟨front, u, back, hsplit, rfl, rfl⟩
    · obtain ⟨L, text, hin, hbind, hv⟩ := h.takes u hmem
      exact ⟨L, text, List.mem_cons_of_mem _ hin, hbind, hv⟩

/-- The last step of a path that ends in a catch-all. -/
theorem Along.last {front : List Segment} {u : Template} {c : String} {rest : List String}
    (hsplit : P = front ++ [.param u]) (hkey : Segment.key (.param u) = .catchAll)
    (hk : keyTurn t.passes (keysOf front) c = some .catchAll)
    (hval : u.valueIn values = some (.single (Node.restText (c :: rest)))) :
    Along t P values front [.param u] (c :: rest) := by
  have hkeys : keysOf front ++ [.catchAll] = keysOf P := by
    rw [hsplit, Segment.keysOf_append, ← hkey]
    rfl
  have htrail : trail t.passes (keysOf front) (c :: rest)
      = [(keysOf P, Node.restText (c :: rest))] := by
    rw [trail, hk, ← hkeys]
    rfl
  refine ⟨?_, fun step hstep => ?_, fun w hmem => ?_⟩
  · rw [reach_cons, hk, ← hkeys]
    rfl
  · rw [htrail] at hstep
    obtain rfl := List.mem_singleton.mp hstep
    exact List.prefix_refl _
  · obtain rfl := Segment.param.inj (List.mem_singleton.mp hmem)
    rw [htrail]
    refine ⟨_, _, List.mem_singleton_self _, ?_, hval⟩
    exact (Segment.bindsAt_iff P w.name _).mpr ⟨front, w, [], hsplit, rfl, by rw [← hsplit]⟩

/-- **The request of a path goes along the path**, as long as nothing stands in its way. The induction
    is on what is left of the path; `front` and `taken` are what the request has passed. -/
theorem along_of_spells (hP : (P, v) ∈ t) (hu : Unshadowed t P path) :
    ∀ (back front : List Segment) (taken rest : List String), Spells values back rest →
      P = front ++ back → path = taken ++ rest → taken.length = front.length →
      Along t P values front back rest
  | [], front, taken, rest, h, hsplit, _, _ => by
    cases h
    rw [List.append_nil] at hsplit
    have hends : reach t.passes (keysOf front) [] = some (keysOf P) := by rw [hsplit]; rfl
    exact ⟨hends, fun _ hstep => (nomatch hstep), fun _ hmem => (nomatch hmem)⟩
  | s :: back, front, taken, rest, h, hsplit, hpath, hlen => by
    rcases h.first with ⟨c, rest, rfl, hs, hrest, hval⟩ | ⟨u, rfl, hkey, rfl, hne, hval⟩
    · have hk := keyTurn_of_spells hP hu hsplit hpath hlen h
      refine Along.cons hsplit hs hk hval ?_
      exact along_of_spells hP hu back (front ++ [s]) (taken ++ [c]) rest hrest
        (by rw [hsplit, List.append_cons]) (by rw [hpath, List.append_cons]) (by simp [hlen])
    · obtain ⟨c, rest, rfl⟩ := List.exists_cons_of_ne_nil hne
      have hk := keyTurn_of_spells hP hu hsplit hpath hlen h
      rw [hkey] at hk
      exact Along.last hsplit hkey hk hval

end

/-! ## 3. The lookup -/

namespace Router

variable [RouteValue V]

/-- What a request gets whose walk ends at the end of a route. -/
theorem lookup_at_end {r : Router V} {t : Table V} (hr : r.root.Shows t) {path : List String}
    {K : List Key} {last : Route V} (hK : reach t.passes [] path = some K)
    (hlast : t.ending? K = some last) :
    ∃ m, (r.lookup path).value = some m ∧ m.value = some last.2 := by
  have hanswer := lookup_of_shows hr path
  have hvalue : t.value K = some last.2 := by
    rw [Table.value, hlast]
    rfl
  rw [Table.answer, hK, Option.bind_some, hvalue] at hanswer
  exact Option.map_eq_some_iff.mp hanswer

/-- **A route that nothing shadows is found under its own expansion.** Take the router that any
    insertions have made of the empty one, a route of it, and values that the path of the route stands
    for some components under, where nothing stands in the way of these and the names along the path
    are apart. Then the path is expanded under the values, the text of the expansion is found with
    the value of the last route that was inserted under the keys of the path, and each name of the path
    is bound to its value. -/
theorem own_expansion_found (steps : List (Route V)) {P : List Segment} {v : V} {values : Params}
    {path : List String} :
    let calls := steps.map fun s => Call.insert s.1 s.2
    let r := empty.afterAll calls
    let t := empty.history calls
    (P, v) ∈ t → P ≠ [] → Spells values P path → Unshadowed t P path → NamedApart t P →
      (∀ pattern, Pattern.parse pattern = .ok P →
        Uri.parsePattern pattern = .ok (Uri.ofSegments P)) ∧
      ∃ e m last, (Uri.ofSegments P).expand (some values) = .ok e ∧
        (r.lookupPath e.text).value = some m ∧ t.ending? (keysOf P) = some last ∧
        m.value = some last.2 ∧
        ∀ u, .param u ∈ P → m.params.get? u.name = u.valueIn values := by
  intro calls r t hP hne hs hu hn
  have hr : r.root.Shows t := shows_insertions steps
  obtain ⟨out, hexp, hwritten⟩ := Uri.expand_of_spells hs
  obtain ⟨last, hlast⟩ := Table.ending?_of_mem hP
  have halong : Along t P values [] P path :=
    along_of_spells hP hu P [] [] path hs rfl rfl rfl
  obtain ⟨m, hm, hvalue⟩ := lookup_at_end hr halong.ends hlast
  refine ⟨fun _ => Uri.parsePattern_of_parse, Uri.ofSegments out, m, last, ?_, ?_, hlast, hvalue,
    fun u hmem => ?_⟩
  · rw [Uri.expand]
    show (Uri.expandSegments values P).map _ = _
    rw [hexp]
    rfl
  · rw [lookupPath, Uri.text_ofSegments, Uri.components_of_written (hs.path_ne_nil hne) hwritten]
    exact hm
  · obtain ⟨L, text, hstep, hbind, hv⟩ := halong.takes u hmem
    have hname : t.names L u.name := ⟨(P, v), hP, hbind⟩
    have hprefix := halong.within _ hstep
    have hne : u.name ≠ Params.listingKey := fun e => hn.listing L hprefix (e ▸ hname)
    rw [result_of_lookup hm, get?_result_params _ path hne, hv]
    exact hr.get?_of_trail hstep hname fun step hin hother =>
      hn.apart _ _ _ (halong.within step hin) hprefix hother hname

/-- A route with a template of each kind that goes on with one component or more, beside a route with a
    key of its own in place of one of them. -/
theorem own_expansion_found_pages :
    let P : List Segment := [.param ⟨"site", none, some "en"⟩, .param ⟨"user", none, none⟩,
      .param ⟨"path", some .catchAll, none⟩]
    let calls := [Call.insert [.literal "en", .literal "admin", .literal "log"] "log",
      .insert P "page"]
    let values : Params := [("user", .single "bob"), ("path", .single "a%2Fb/c")]
    ∃ e m last, (Uri.ofSegments P).expand (some values) = .ok e ∧
      ((empty.afterAll calls).lookupPath e.text).value = some m ∧
      (empty.history calls).ending? (keysOf P) = some last ∧ m.value = some last.2 ∧
      ∀ u, .param u ∈ P → m.params.get? u.name = u.valueIn values := by
  intro P calls values
  let log : List Segment := [.literal "en", .literal "admin", .literal "log"]
  let path := ["en", "bob", "a/b", "c"]
  have ht : empty.history calls = [(log, "log"), (P, "page")] := by with_unfolding_all rfl
  have hs : Spells values P path := by
    refine .pinned rfl (.given rfl (by decide) (.all ?_ (by decide)))
    have hrest : Node.restText ["a/b", "c"] = "a%2Fb/c" := by decide +kernel
    rw [hrest]
    rfl
  have hu : Unshadowed (empty.history calls) P path := by
    rw [ht]
    intro front u back c hsplit hfixed hc
    match front, hsplit with
    | [], hsplit =>
      obtain ⟨hu, -⟩ := List.cons.inj hsplit
      cases hu
      cases hfixed
    | [_], hsplit =>
      simp only [P, List.cons_append, List.nil_append, List.cons.injEq,
        Segment.param.injEq] at hsplit
      obtain ⟨rfl, rfl, rfl⟩ := hsplit
      cases hc
      exact ⟨by decide, fun h => nomatch h⟩
    | [_, _], hsplit =>
      simp only [P, List.cons_append, List.nil_append, List.cons.injEq,
        Segment.param.injEq] at hsplit
      obtain ⟨rfl, rfl, rfl, rfl⟩ := hsplit
      cases hc
      exact ⟨by decide, fun _ => by decide⟩
    | _ :: _ :: _ :: front, hsplit => simp [P] at hsplit
  have hnames : ∀ L name, L <+: keysOf P → (empty.history calls).names L name →
      (L, name) ∈ [([.exact "en"], "site"), ([.exact "en", .wild], "user"),
        ([.exact "en", .wild, .catchAll], "path")] := by
    intro L name hL hname
    rw [ht] at hname
    obtain ⟨r, hr, hbind⟩ := hname
    have hkeys : keysOf P = [.exact "en", .wild, .catchAll] := rfl
    simp only [hkeys, List.prefix_cons_iff, List.prefix_nil] at hL
    rcases List.mem_cons.mp hr with rfl | hr
    · rcases hL with rfl | ⟨_, rfl, rfl | ⟨_, rfl, rfl | ⟨_, rfl, rfl⟩⟩⟩ <;> cases hbind
    · cases List.mem_singleton.mp hr
      rcases hL with rfl | ⟨_, rfl, rfl | ⟨_, rfl, rfl | ⟨_, rfl, rfl⟩⟩⟩ <;> cases hbind <;> simp
  have hn : NamedApart (empty.history calls) P := by
    refine ⟨fun L M name hL hM hLn hMn => ?_, fun L hL hLn => ?_⟩
    · have h1 := hnames L name hL hLn
      have h2 := hnames M name hM hMn
      simp only [List.mem_cons, Prod.mk.injEq, List.not_mem_nil, or_false] at h1 h2
      rcases h1 with ⟨rfl, rfl⟩ | ⟨rfl, rfl⟩ | ⟨rfl, rfl⟩ <;>
        simpa [@eq_comm _ M] using h2
    · have h1 := hnames L _ hL hLn
      simp [Params.listingKey] at h1
  obtain ⟨-, h⟩ := own_expansion_found [(log, "log"), (P, "page")] (P := P) (v := "page") (by
    show (P, "page") ∈ empty.history calls
    rw [ht]
    exact List.mem_cons_of_mem _ List.mem_cons_self) (List.cons_ne_nil _ _) hs hu hn
  exact h

end Router

end RouteTree
