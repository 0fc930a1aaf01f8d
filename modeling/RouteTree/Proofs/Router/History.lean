import RouteTree.Proofs.Node.Holding
import RouteTree.Router.Mount

/-!
# Histories of a router

A router is what a sequence of calls has made of the empty one. A call that is refused leaves the
router as it was. The history of a router is the table of the routes that the other calls put there,
in their order.

* `Call.routes` reads the routes of a call off its arguments, without a tree;
* `after_cases` is what a call can do, and `afterAll_keeps` the induction on a run;
* `shows_after` is one call, `shows_afterAll` the run: the tree shows the history, if no set of routes
  was mounted under a template that may be absent or takes all that is left, and no empty one;
* `holds_after` and `holds_afterAll` say what is left of that if empty sets of routes are mounted as well;
* `sound_after` and `sound_afterAll` keep what later mounts need, for mounts of every kind, and
  `canonical_after` and `canonical_afterAll` the order of the children.
-/

namespace RouteTree

variable {V : Type}

/-! ## 1. Calls -/

/-- A call that may change a router. -/
inductive Call (V : Type) where
  /-- Insert a route. -/
  | insert (segments : List Segment) (value : V)
  /-- Insert the route of a pattern. -/
  | insertPattern (pattern : String) (value : V)
  /-- Mount a set of routes. -/
  | addSpec (spec : ApiSpec V)

namespace Call

/-- Do a call. An insertion changes the router where it is, and a set of routes is mounted on a copy that
    takes the place of the router at the end. -/
def run (r : Router V) : Call V → Changed (Router V)
  | insert segments value => r.insert segments value
  | insertPattern pattern value => r.insertPattern pattern value
  | addSpec spec => .replace r (r.addSpec spec)

/-- The routes a call asks for, in the order in which it names them. -/
def routes : Call V → Table V
  | insert segments value => [Node.cutRoute (segments, value)]
  | insertPattern pattern value =>
    match Pattern.parse pattern with
    | .ok segments => [Node.cutRoute (segments, value)]
    | .error _ => []
  | addSpec spec =>
    match ApiSpec.parseRoutes spec.paths, spec.mountPoints with
    | .ok routes, .ok mounts => (Node.rowsAt routes mounts).map Node.cutRoute
    | _, _ => []

/-- The call mounts no empty set of routes. -/
def Filled : Call V → Prop
  | addSpec spec => spec.paths ≠ []
  | _ => True

/-- Each segment of each mount of the call stands for exactly one component. -/
def PlainMounts : Call V → Prop
  | addSpec spec => ∀ mounts, spec.mountPoints = .ok mounts →
      ∀ mount ∈ mounts, ∀ s ∈ mount, s.isPlain = true
  | _ => True

end Call

namespace Router

/-- The router after a call. -/
def after (r : Router V) (c : Call V) : Router V := (c.run r).state

/-- The routes a call puts into a router. -/
def accepted (r : Router V) (c : Call V) : Table V :=
  match (c.run r).outcome with
  | .ok _ => c.routes
  | .error _ => []

/-- The router after some calls. -/
def afterAll (r : Router V) : List (Call V) → Router V
  | [] => r
  | c :: calls => (r.after c).afterAll calls

/-- The routes that some calls put into a router, the oldest first. -/
def history (r : Router V) : List (Call V) → Table V
  | [] => []
  | c :: calls => r.accepted c ++ (r.after c).history calls

/-- Each route of a history is one that a call asked for. -/
theorem exists_call_of_mem_history : ∀ {calls : List (Call V)} {r : Router V} {route : Route V},
    route ∈ r.history calls → ∃ c ∈ calls, route ∈ c.routes
  | c :: calls, r, route, h => by
    rcases List.mem_append.mp h with h | h
    · unfold accepted at h
      split at h
      · exact ⟨c, List.mem_cons_self, h⟩
      · cases h
    · obtain ⟨d, hd, hroute⟩ := exists_call_of_mem_history h
      exact ⟨d, List.mem_cons_of_mem c hd, hroute⟩

/-! ## 2. How calls end -/

theorem outcome_insert (r : Router V) (segments : List Segment) (value : V) :
    (r.insert segments value).outcome
      = (r.root.extend value (Node.cutAfterCatchAll segments)).map Router.mk := by
  rw [insert, Changed.outcome_map, Node.outcome_insert]

theorem outcome_insertPattern (r : Router V) (pattern : String) (value : V) :
    (r.insertPattern pattern value).outcome
      = (Pattern.parse pattern).bind fun segments => (r.insert segments value).outcome := by
  unfold insertPattern
  cases Pattern.parse pattern <;> rfl

theorem outcome_addSpec (r : Router V) (spec : ApiSpec V) :
    (r.addSpec spec).outcome = (ApiSpec.parseRoutes spec.paths).bind fun routes =>
      (Node.empty.insertAll [] routes).outcome.bind fun tree =>
        spec.mountPoints.bind fun mounts =>
          (r.root.mountAll routes tree mounts).outcome.map Router.mk := by
  unfold addSpec
  simp only [Attempt.outcome_bind, Attempt.outcome_ofExcept, Attempt.outcome_pure]
  rfl

theorem outcome_addSpec_of {r : Router V} {spec : ApiSpec V} {routes : List (Route V)} {tree : Node V}
    {mounts : List (List Segment)} (hp : ApiSpec.parseRoutes spec.paths = .ok routes)
    (ht : (Node.empty.insertAll [] routes).outcome = .ok tree) (hm : spec.mountPoints = .ok mounts) :
    (r.addSpec spec).outcome = (r.root.mountAll routes tree mounts).outcome.map Router.mk := by
  simp only [outcome_addSpec, hp, ht, hm, Except.bind]

theorem parseRoutes_ne_nil {paths : List (String × V)} {routes : List (Route V)}
    (hp : paths ≠ []) (h : ApiSpec.parseRoutes paths = .ok routes) : routes ≠ [] := by
  cases paths with
  | nil => exact absurd rfl hp
  | cons p rest =>
    obtain ⟨pattern, value⟩ := p
    unfold ApiSpec.parseRoutes at h
    split at h
    · cases h
    · split at h <;> cases h
      exact List.cons_ne_nil _ _

/-- What a set of routes that was mounted had to pass. -/
structure Mounts (r : Router V) (spec : ApiSpec V) (r' : Router V) where
  /-- Its routes. -/
  routes : List (Route V)
  /-- Their tree. -/
  tree : Node V
  /-- Its mounts. -/
  mounts : List (List Segment)
  parsed : ApiSpec.parseRoutes spec.paths = .ok routes
  built : (Node.empty.insertAll [] routes).outcome = .ok tree
  points : spec.mountPoints = .ok mounts
  mounted : (r.root.mountAll routes tree mounts).outcome = .ok r'.root

theorem mounts_of_addSpec {r r' : Router V} {spec : ApiSpec V}
    (h : (r.addSpec spec).outcome = .ok r') : Nonempty (Mounts r spec r') := by
  rw [outcome_addSpec] at h
  obtain ⟨routes, hp, h⟩ := Attempt.ok_of_bind h
  obtain ⟨tree, ht, h⟩ := Attempt.ok_of_bind h
  obtain ⟨mounts, hm, h⟩ := Attempt.ok_of_bind h
  obtain ⟨root, hr, rfl⟩ := Attempt.ok_of_map h
  exact ⟨⟨routes, tree, mounts, hp, ht, hm, hr⟩⟩

/-! ## 3. One call -/

/-- An insertion into a router is one into its tree. -/
theorem root_of_insert {r r' : Router V} {segments : List Segment} {value : V}
    (h : (r.insert segments value).outcome = .ok r') :
    r.root.extend value (Node.cutAfterCatchAll segments) = .ok r'.root := by
  rw [outcome_insert] at h
  obtain ⟨root, hx, rfl⟩ := Attempt.ok_of_map h
  exact hx

theorem shows_of_insert {r r' : Router V} {segments : List Segment} {value : V} {t : Table V}
    (hr : r.root.Shows t) (h : (r.insert segments value).outcome = .ok r') :
    r'.root.Shows (t ++ [Node.cutRoute (segments, value)]) :=
  hr.extend (Segment.isCut_cut segments) (root_of_insert h)

theorem parse_of_insertPattern {r r' : Router V} {pattern : String} {value : V}
    (h : (r.insertPattern pattern value).outcome = .ok r') :
    ∃ segments, Pattern.parse pattern = .ok segments ∧
      (r.insert segments value).outcome = .ok r' := by
  rw [outcome_insertPattern] at h
  exact Attempt.ok_of_bind h

/-- An insertion that is refused has not begun to change the tree. -/
theorem state_insert_of_refused {r : Router V} {segments : List Segment} {value : V} {e : RouteError}
    (h : (r.insert segments value).outcome = .error e) : (r.insert segments value).state = r := by
  rw [insert, Changed.outcome_map] at h
  rw [insert, Changed.state_map]
  cases ho : (r.root.insert segments value).outcome with
  | ok root =>
    rw [ho] at h
    cases h
  | error f => rw [Node.state_insert_of_refused ho]

theorem state_insertPattern_of_refused {r : Router V} {pattern : String} {value : V} {e : RouteError}
    (h : (r.insertPattern pattern value).outcome = .error e) :
    (r.insertPattern pattern value).state = r := by
  unfold insertPattern at h ⊢
  cases hp : Pattern.parse pattern with
  | error f => rfl
  | ok segments =>
    rw [hp] at h
    exact state_insert_of_refused h

/-- **A call that is refused leaves the router as it was.** The copy that routes were mounted on is
    dropped. -/
theorem after_of_refused {r : Router V} {c : Call V} {e : RouteError}
    (h : (c.run r).outcome = .error e) : r.after c = r := by
  cases c with
  | insert segments value => exact state_insert_of_refused h
  | insertPattern pattern value => exact state_insertPattern_of_refused h
  | addSpec spec => exact Changed.state_replace_of_error ((Changed.outcome_replace r _).symm.trans h)

theorem after_of_ok {r r' : Router V} {c : Call V} (h : (c.run r).outcome = .ok r') :
    r.after c = r' := Changed.state_of_ok h

/-- **What a call can do.** It is refused and does nothing, or it inserts one route, or it mounts a set
    of routes. -/
theorem after_cases (r : Router V) (c : Call V) :
    (r.after c = r ∧ r.accepted c = []) ∨
    (∃ segments value,
      r.root.extend value (Node.cutAfterCatchAll segments) = .ok (r.after c).root ∧
      r.accepted c = [Node.cutRoute (segments, value)]) ∨
    ∃ spec, c = .addSpec spec ∧ Nonempty (Mounts r spec (r.after c)) ∧ r.accepted c = c.routes := by
  unfold accepted
  cases h : (c.run r).outcome with
  | error e => exact Or.inl ⟨after_of_refused h, rfl⟩
  | ok r' =>
    rw [after_of_ok h]
    cases c with
    | insert segments value => exact Or.inr (Or.inl ⟨segments, value, root_of_insert h, rfl⟩)
    | insertPattern pattern value =>
      obtain ⟨segments, hpat, hi⟩ := parse_of_insertPattern h
      refine Or.inr (Or.inl ⟨segments, value, root_of_insert hi, ?_⟩)
      show (Call.insertPattern pattern value).routes = _
      rw [Call.routes, hpat]
    | addSpec spec =>
      exact Or.inr (Or.inr ⟨spec, rfl,
        mounts_of_addSpec ((Changed.outcome_replace r _).symm.trans h), rfl⟩)

/-- A call keeps a router that may be mounted on, whatever it mounts and where. -/
theorem sound_after {r : Router V} (hr : r.root.Sound) {c : Call V} (hc : c.Filled) :
    (r.after c).root.Sound := by
  rcases after_cases r c with ⟨hsame, -⟩ | ⟨segments, value, hx, -⟩ | ⟨spec, rfl, ⟨m⟩, -⟩
  · rw [hsame]
    exact hr
  · exact hr.extend (Segment.isCut_cut segments) hx
  · exact hr.mountAll (parseRoutes_ne_nil hc m.parsed) m.built m.mounted

/-- A set of routes with plain mounts is mounted as its routes are inserted, one after the other. -/
theorem insertAll_of_mounts {r r' : Router V} {spec : ApiSpec V} (hr : r.root.Sound)
    (hc : (Call.addSpec spec).Filled) (hp : (Call.addSpec spec).PlainMounts) (m : Mounts r spec r') :
    (r.root.insertAll [] (Node.rowsAt m.routes m.mounts)).outcome = .ok r'.root := by
  rw [← Node.mountAll_eq_insertAll (parseRoutes_ne_nil hc m.parsed) m.built m.mounts
    (hp m.mounts m.points) hr]
  exact m.mounted

/-- **One call, one step of the table.** -/
theorem shows_after {r : Router V} {t : Table V} (hr : r.root.Sound) (hs : r.root.Shows t)
    {c : Call V} (hc : c.Filled) (hp : c.PlainMounts) :
    (r.after c).root.Shows (t ++ r.accepted c) := by
  rcases after_cases r c with ⟨hsame, hnone⟩ | ⟨segments, value, hx, hone⟩ | ⟨spec, rfl, ⟨m⟩, hall⟩
  · rw [hsame, hnone, List.append_nil]
    exact hs
  · rw [hone]
    exact hs.extend (Segment.isCut_cut segments) hx
  · rw [hall, Call.routes, m.parsed, m.points]
    exact hs.insertAll (Node.rowsAt m.routes m.mounts) (insertAll_of_mounts hr hc hp m)

/-- One call, for mounts of empty sets of routes as well. -/
theorem holds_after {r : Router V} {t : Table V} (hr : r.root.Holds t) {c : Call V}
    (hp : c.PlainMounts) : (r.after c).root.Holds (t ++ r.accepted c) := by
  rcases after_cases r c with ⟨hsame, hnone⟩ | ⟨segments, value, hx, hone⟩ | ⟨spec, rfl, ⟨m⟩, hall⟩
  · rw [hsame, hnone, List.append_nil]
    exact hr
  · rw [hone]
    exact hr.extend (Segment.isCut_cut segments) hx
  · rw [hall, Call.routes, m.parsed, m.points]
    exact hr.mountAll m.built m.mounts (hp m.mounts m.points) m.mounted

theorem canonical_after {r : Router V} (hr : r.root.Canonical) {c : Call V} (hp : c.PlainMounts) :
    (r.after c).root.Canonical := by
  rcases after_cases r c with ⟨hsame, -⟩ | ⟨segments, value, hx, -⟩ | ⟨spec, rfl, ⟨m⟩, -⟩
  · rw [hsame]
    exact hr
  · exact hr.extend (Segment.isCut_cut segments) hx
  · exact hr.mountAll m.built (hp m.mounts m.points) m.mounted

/-! ## 4. Runs -/

/-- **What each call keeps, a run keeps.** -/
theorem afterAll_keeps (keeps : Router V → Prop) (ok : Call V → Prop)
    (step : ∀ r c, keeps r → ok c → keeps (r.after c)) : ∀ (calls : List (Call V)) {r : Router V},
    keeps r → (∀ c ∈ calls, ok c) → keeps (r.afterAll calls)
  | [], _, hr, _ => hr
  | c :: calls, r, hr, hok =>
    afterAll_keeps keeps ok step calls (step r c hr (hok c List.mem_cons_self))
      fun d hd => hok d (List.mem_cons_of_mem c hd)

theorem sound_afterAll (calls : List (Call V)) {r : Router V} (hr : r.root.Sound)
    (hf : ∀ c ∈ calls, c.Filled) : (r.afterAll calls).root.Sound :=
  afterAll_keeps (fun r => r.root.Sound) Call.Filled (fun _ _ hr hc => sound_after hr hc) calls hr hf

/-- **Every node of a router has its children in the order of their keys.** -/
theorem canonical_afterAll (calls : List (Call V)) {r : Router V} (hr : r.root.Canonical)
    (hp : ∀ c ∈ calls, c.PlainMounts) : (r.afterAll calls).root.Canonical :=
  afterAll_keeps (fun r => r.root.Canonical) Call.PlainMounts (fun _ _ hr hc => canonical_after hr hc)
    calls hr hp

/-- **A tree shows its history.** -/
theorem shows_afterAll : ∀ (calls : List (Call V)) {r : Router V} {t : Table V}, r.root.Sound →
    r.root.Shows t → (∀ c ∈ calls, c.Filled) → (∀ c ∈ calls, c.PlainMounts) →
    (r.afterAll calls).root.Shows (t ++ r.history calls)
  | [], r, t, _, hs, _, _ => by
    rw [history, List.append_nil]
    exact hs
  | c :: calls, r, t, hr, hs, hf, hp => by
    have hc := hf c List.mem_cons_self
    have hstep := shows_after hr hs hc (hp c List.mem_cons_self)
    rw [history, ← List.append_assoc]
    exact shows_afterAll calls (sound_after hr hc) hstep
      (fun d hd => hf d (List.mem_cons_of_mem c hd)) (fun d hd => hp d (List.mem_cons_of_mem c hd))

/-- The tree of a router that began empty shows the routes that were accepted. -/
theorem shows_history {calls : List (Call V)} (hf : ∀ c ∈ calls, c.Filled)
    (hp : ∀ c ∈ calls, c.PlainMounts) :
    (empty.afterAll calls).root.Shows (empty.history calls) :=
  shows_afterAll calls Node.sound_empty Node.Shows.empty hf hp

/-- **A tree holds its history**, whether empty sets of routes were mounted or not. -/
theorem holds_afterAll : ∀ (calls : List (Call V)) {r : Router V} {t : Table V}, r.root.Holds t →
    (∀ c ∈ calls, c.PlainMounts) → (r.afterAll calls).root.Holds (t ++ r.history calls)
  | [], r, t, hr, _ => by
    rw [history, List.append_nil]
    exact hr
  | c :: calls, r, t, hr, hp => by
    rw [history, ← List.append_assoc]
    exact holds_afterAll calls (holds_after hr (hp c List.mem_cons_self))
      fun d hd => hp d (List.mem_cons_of_mem c hd)

/-- The tree of a router that began empty holds the routes that were accepted. -/
theorem holds_history {calls : List (Call V)} (hp : ∀ c ∈ calls, c.PlainMounts) :
    (empty.afterAll calls).root.Holds (empty.history calls) :=
  holds_afterAll calls Node.holds_empty hp

end Router

end RouteTree
