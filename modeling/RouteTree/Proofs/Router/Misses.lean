import RouteTree.Proofs.Router.Greedy

/-!
# Which misses are logged

A lookup that finds nothing ends in one of two ways: its walk comes to the end of the request, or it has
left the tree with components unread. Only the first is logged.

* `Node.Strays` says step by step that a walk leaves the tree too early, and `unread_ne_nil_iff_strays`
  that these are the walks with components unread;
* `lookup_cases` says all that a lookup can do;
* `miss_logged_iff` says which misses are logged, for the three ways to look something up.
-/

namespace RouteTree

variable {V : Type}

/-! ## 1. Leaving the tree -/

namespace Node

/-- From this node on, the walk of a request leaves the tree at a component that is not its last. -/
inductive Strays : Node V → List String → Prop where
  | off {n : Node V} {c : String} {rest : List String} :
      n.turn c = .nowhere → rest ≠ [] → Strays n (c :: rest)
  | step {n next : Node V} {c : String} {rest : List String} :
      n.turn c = .child next → Strays next rest → Strays n (c :: rest)

section
variable {n next : Node V} {c : String} {rest : List String}

theorem strays_of_child (h : n.turn c = .child next) : n.Strays (c :: rest) ↔ next.Strays rest := by
  refine ⟨fun hs => ?_, .step h⟩
  cases hs with
  | off ht _ =>
    rw [h] at ht
    cases ht
  | step ht hs =>
    rw [h] at ht
    cases ht
    exact hs

theorem strays_of_nowhere (h : n.turn c = .nowhere) : n.Strays (c :: rest) ↔ rest ≠ [] := by
  refine ⟨fun hs => ?_, .off h⟩
  cases hs with
  | off _ hne => exact hne
  | step ht _ =>
    rw [h] at ht
    cases ht

theorem not_strays_of_rest (h : n.turn c = .rest next) : ¬ n.Strays (c :: rest) := by
  intro hs
  cases hs with
  | off ht _ =>
    rw [h] at ht
    cases ht
  | step ht _ =>
    rw [h] at ht
    cases ht

end

/-- **The walks that leave the tree too early are those with components unread.** -/
theorem unread_ne_nil_iff_strays : ∀ (path : List String) (n : Node V) (params : Params),
    (n.walk params path).unread ≠ [] ↔ n.Strays path
  | [], n, params => ⟨fun h => absurd rfl h, fun h => nomatch h⟩
  | c :: rest, n, params => by
    rw [walk]
    cases ht : n.turn c with
    | child next =>
      rw [strays_of_child ht]
      exact unread_ne_nil_iff_strays rest next (next.bindTo c params)
    | rest next =>
      exact ⟨fun h => absurd rfl h, fun hs => absurd hs (not_strays_of_rest ht)⟩
    | nowhere =>
      rw [strays_of_nowhere ht]

end Node

/-! ## 2. What a lookup can do -/

namespace Router

variable [RouteValue V]

/-- **All that a lookup can do**: fail in silence where the walk leaves the tree too early, and
    otherwise find something in silence or fail with a line in the log. -/
theorem lookup_cases (r : Router V) (path : List String) :
    (r.root.Strays path ∧ r.lookup path = Logged.quiet none) ∨
    (¬ r.root.Strays path ∧ ∃ found, r.lookup path = Logged.quiet (some found)) ∨
    (¬ r.root.Strays path ∧ r.lookup path = ⟨[.lookupMiss path.length], none⟩) := by
  rw [← Node.unread_ne_nil_iff_strays path r.root []]
  unfold lookup
  dsimp only
  by_cases hu : (r.root.walk [] path).unread ≠ []
  · rw [if_pos hu]
    exact Or.inl ⟨hu, rfl⟩
  · rw [if_neg hu]
    split
    · exact Or.inr (Or.inl ⟨hu, _, rfl⟩)
    · exact Or.inr (Or.inr ⟨hu, rfl⟩)

/-- What the log says of a request, given what was found for it: nothing if something was, one line
    with the number of components if nothing was and the walk came to the end of the request, and
    nothing again if it left the tree before. -/
structure Reports (r : Router V) (path : List String) (found : Option (RouteMatch V))
    (events : List Event) : Prop where
  quiet : found ≠ none → events = []
  told : found = none → (events = [.lookupMiss path.length] ↔ ¬ r.root.Strays path)
  strayed : r.root.Strays path → found = none ∧ events = []

theorem reports_lookup (r : Router V) (path : List String) :
    r.Reports path (r.lookup path).value (r.lookup path).events := by
  rcases lookup_cases r path with ⟨hs, h⟩ | ⟨hs, found, h⟩ | ⟨hs, h⟩
  · rw [h]
    exact ⟨fun hne => absurd rfl hne, fun _ => ⟨nofun, fun hn => absurd hs hn⟩, fun _ => ⟨rfl, rfl⟩⟩
  · rw [h]
    exact ⟨fun _ => rfl, nofun, fun hs' => absurd hs' hs⟩
  · rw [h]
    exact ⟨fun hne => absurd rfl hne, fun _ => ⟨fun _ => hs, fun _ => rfl⟩, fun hs' => absurd hs' hs⟩

/-- A URI that may be looked up is looked up by its components; one that may not is refused in
    silence. -/
theorem lookupUri_cases (r : Router V) (u : Uri) :
    (∃ path, componentsOf u u.segments = .ok path ∧
      (r.lookupUri u).outcome = .ok (r.lookup path).value ∧
      (r.lookupUri u).events = (r.lookup path).events) ∨
    (∃ fault, componentsOf u u.segments = .error fault ∧
      (r.lookupUri u).outcome = .error (.invalidPath fault) ∧ (r.lookupUri u).events = []) := by
  unfold lookupUri
  cases h : componentsOf u u.segments with
  | error fault => exact Or.inr ⟨fault, rfl, rfl, rfl⟩
  | ok path => exact Or.inl ⟨path, rfl, rfl, List.append_nil _⟩

/-- **A miss is logged, once, exactly if its walk came to the end of the request.** For every router
    and every request: a match is not logged; a miss is logged as one line with the number of
    components if and only if the walk does not leave the tree at a component with others behind it;
    and where it does, nothing is found and nothing logged. The path of a request is looked up in the
    same way by its components, and so is a URI unless it is refused, which logs nothing. -/
theorem miss_logged_iff (r : Router V) :
    (∀ path, r.Reports path (r.lookup path).value (r.lookup path).events) ∧
    (∀ text, r.Reports (Path.components text) (r.lookupPath text).value
      (r.lookupPath text).events) ∧
    (∀ u path, componentsOf u u.segments = .ok path →
      ∃ found, (r.lookupUri u).outcome = .ok found ∧ r.Reports path found (r.lookupUri u).events) ∧
    (∀ u fault, (r.lookupUri u).outcome = .error fault → (r.lookupUri u).events = []) := by
  refine ⟨reports_lookup r, fun text => reports_lookup r _, fun u path hc => ?_, fun u fault hf => ?_⟩
  · rcases lookupUri_cases r u with ⟨path', hc', ho, he⟩ | ⟨fault, hc', -⟩
    · obtain rfl : path = path' := Except.ok.inj (hc.symm.trans hc')
      refine ⟨_, ho, ?_⟩
      rw [he]
      exact reports_lookup r path
    · rw [hc] at hc'
      cases hc'
  · rcases lookupUri_cases r u with ⟨path, -, ho, -⟩ | ⟨other, -, -, he⟩
    · rw [ho] at hf
      cases hf
    · exact he

/-- A request that leaves the tree at its last component, and a URI that leaves it one component
    earlier. -/
theorem miss_logged_page :
    let r : Router String := ⟨Node.build "page" [.literal "v1", .literal "page"]⟩
    let u := Uri.ofSegments [.literal "v1", .param ⟨"id", none, some "7"⟩, .literal "page"]
    (r.lookup ["v1", "7"]).events = [.lookupMiss 2] ∧
      (r.lookupUri u).outcome.toOption = some none ∧ (r.lookupUri u).events = [] := by
  intro r u
  have hc : componentsOf u u.segments = .ok ["v1", "7", "page"] := rfl
  have hstay : ¬ r.root.Strays ["v1", "7"] := by
    rw [← Node.unread_ne_nil_iff_strays _ _ []]
    exact fun h => h rfl
  have hstray : r.root.Strays ["v1", "7", "page"] := by
    rw [← Node.unread_ne_nil_iff_strays _ _ []]
    exact List.cons_ne_nil _ _
  obtain ⟨hlookup, -, huri, -⟩ := miss_logged_iff r
  obtain ⟨found, ho, hreports⟩ := huri u _ hc
  obtain ⟨rfl, hevents⟩ := hreports.strayed hstray
  refine ⟨((hlookup _).told rfl).mpr hstay, ?_, hevents⟩
  rw [ho]
  rfl

/-- Two components that are both missing are not logged; one alone is. -/
theorem misses_in_silence :
    let r : Router String := empty
    (r.lookup ["v1", "page"]).value.isNone ∧ (r.lookup ["v1", "page"]).events = [] ∧
      (r.lookup ["v1"]).value.isNone ∧ (r.lookup ["v1"]).events = [.lookupMiss 1] :=
  ⟨rfl, rfl, rfl, rfl⟩

end Router

end RouteTree
