import RouteTree.Proofs.Node.Grafting
import RouteTree.Proofs.Router.History

/-!
# What the log says of mounts

The mounts of a set of routes are made one after the other on a tree that takes the router's place when
all of them are made. The line about a mount is written as soon as it is made, so that a refusal leaves
the lines about the mounts before it in the log and none of these mounts in the router.

* `mountLines_mountRoutes` is one mount: a line if it is made, none if it is refused;
* `Told` says what the lines about some mounts are, each with the tree as that mount found it;
* `told_mountAll` is the run: it is told to its end or to the refusal;
* `spec_mounted_iff` says so of the call, with the condition under which a refused one is silent.
-/

namespace RouteTree

variable {V : Type}

/-! ## 1. Lines about mounts -/

/-- The line says that routes were mounted. -/
def Event.isSpecMounted : Event → Bool
  | .specMounted _ _ _ => true
  | _ => false

namespace Attempt

variable {α β : Type}

/-- The lines of an attempt that say that routes were mounted. -/
def mountLines (x : Attempt α) : List Event := x.events.filter Event.isSpecMounted

theorem mountLines_bind_of_ok {x : Attempt α} {a : α} (h : x.outcome = .ok a)
    (f : α → Attempt β) : mountLines (x >>= f) = x.mountLines ++ (f a).mountLines := by
  rw [mountLines, events_bind_of_ok h, List.filter_append]
  rfl

theorem mountLines_bind_of_error {x : Attempt α} {e : RouteError} (h : x.outcome = .error e)
    (f : α → Attempt β) : mountLines (x >>= f) = x.mountLines := by
  rw [mountLines, events_bind_of_error h]
  rfl

/-- A silent beginning adds no line. -/
theorem mountLines_bind_of_nil {x : Attempt α} (h : x.mountLines = []) {f : α → Attempt β}
    (hf : ∀ a, (f a).mountLines = []) : mountLines (x >>= f) = [] := by
  cases ho : x.outcome with
  | error e => rw [mountLines_bind_of_error ho, h]
  | ok a => rw [mountLines_bind_of_ok ho, h, hf a, List.nil_append]

/-- Do something, and write a line once it is done. -/
def thenTell (x : Attempt α) (line : Event) : Attempt α := do
  let a ← x
  log line
  return a

/-- What is silent and told when it is done is told exactly if it is done. -/
theorem mountLines_thenTell {x : Attempt α} (h : x.mountLines = []) {line : Event}
    (hl : line.isSpecMounted = true) :
    (∀ a, (x.thenTell line).outcome = .ok a → (x.thenTell line).mountLines = [line]) ∧
    ∀ e, (x.thenTell line).outcome = .error e → (x.thenTell line).mountLines = [] := by
  unfold thenTell
  rw [outcome_bind]
  cases ho : x.outcome with
  | error e =>
    rw [mountLines_bind_of_error ho, h]
    exact ⟨nofun, fun _ _ => rfl⟩
  | ok a =>
    rw [mountLines_bind_of_ok ho, h]
    refine ⟨fun _ _ => ?_, nofun⟩
    show [line].filter Event.isSpecMounted = [line]
    rw [List.filter_cons_of_pos hl, List.filter_nil]

end Attempt

namespace Node

open Attempt

theorem filter_cutEvents (segments : List Segment) :
    (cutEvents segments).filter Event.isSpecMounted = [] := by
  unfold cutEvents
  dsimp only
  split
  · split <;> rfl
  · rfl

/-- An insertion is no mount. -/
theorem mountLines_insert (n : Node V) (segments : List Segment) (v : V) :
    (n.insert segments v).attempt.mountLines = [] := by
  rw [mountLines, Changed.events_attempt]
  rcases insert_cases n segments v with ⟨_, -, hi⟩ | ⟨_, -, -, hi⟩
  · rw [hi]
    exact filter_cutEvents segments
  · rw [hi, List.filter_append, filter_cutEvents]
    rfl

theorem mountLines_insertAll (mount : List Segment) (routes : List (Route V)) :
    ∀ n : Node V, (n.insertAll mount routes).mountLines = [] := by
  induction routes with
  | nil =>
    intro n
    rfl
  | cons r routes ih =>
    intro n
    exact mountLines_bind_of_nil (mountLines_insert n (mount ++ r.1) r.2) fun m => ih m

/-! ## 2. One mount -/

/-- The line about a mount that finds this tree: the mount, the number of routes, and whether they share
    one subtree, which they do if the end of the mount is free. -/
def mountLine (n : Node V) (count : Nat) (mount : List Segment) : Event :=
  .specMounted (Segment.displayAll mount) count (n.isFree mount)

theorem mountRoutes_of_graft {n tree m : Node V} {mount : List Segment} {shared : Bool}
    (h : n.graft tree mount = .ok (m, shared)) (routes : List (Route V)) :
    n.mountRoutes routes tree mount
      = (if shared then pure m else m.insertAll mount routes : Attempt (Node V)).thenTell
          (n.mountLine routes.length mount) := by
  unfold mountRoutes mountLine
  rw [h, isFree_of_graft h]
  cases shared <;> rfl

/-- **One mount is told once if it is made, and not at all if it is refused.** -/
theorem mountLines_mountRoutes (n tree : Node V) (routes : List (Route V)) (mount : List Segment) :
    (∀ m, (n.mountRoutes routes tree mount).outcome = .ok m →
      (n.mountRoutes routes tree mount).mountLines = [n.mountLine routes.length mount]) ∧
    ∀ e, (n.mountRoutes routes tree mount).outcome = .error e →
      (n.mountRoutes routes tree mount).mountLines = [] := by
  cases hg : n.graft tree mount with
  | error e =>
    unfold mountRoutes
    rw [hg]
    exact ⟨nofun, fun _ _ => rfl⟩
  | ok g =>
    obtain ⟨m, shared⟩ := g
    rw [mountRoutes_of_graft hg]
    refine mountLines_thenTell ?_ rfl
    cases shared with
    | true => rfl
    | false => exact mountLines_insertAll mount routes m

/-! ## 3. All mounts -/

/-- `Told routes tree n mounts lines m`: made one after the other, the mounts turn `n` into `m`, and
    there is one line about each, in their order, as it finds the tree. -/
inductive Told (routes : List (Route V)) (tree : Node V) :
    Node V → List (List Segment) → List Event → Node V → Prop where
  | nil {n : Node V} : Told routes tree n [] [] n
  | cons {n next m : Node V} {mount : List Segment} {mounts : List (List Segment)}
      {lines : List Event} :
      (n.mountRoutes routes tree mount).outcome = .ok next → Told routes tree next mounts lines m →
      Told routes tree n (mount :: mounts) (n.mountLine routes.length mount :: lines) m

section
variable {routes : List (Route V)} {tree : Node V}

/-- **The log tells all mounts up to the end, or up to the one that is refused.** -/
theorem told_mountAll (mounts : List (List Segment)) : ∀ n : Node V,
    (∃ m, (n.mountAll routes tree mounts).outcome = .ok m ∧
      Told routes tree n mounts (n.mountAll routes tree mounts).mountLines m) ∨
    (∃ e made mount rest m, (n.mountAll routes tree mounts).outcome = .error e ∧
      mounts = made ++ mount :: rest ∧
      Told routes tree n made (n.mountAll routes tree mounts).mountLines m ∧
      (m.mountRoutes routes tree mount).outcome = .error e) := by
  induction mounts with
  | nil =>
    intro n
    exact Or.inl ⟨n, rfl, .nil⟩
  | cons mount mounts ih =>
    intro n
    obtain ⟨hmade, hrefused⟩ := mountLines_mountRoutes n tree routes mount
    rw [mountAll, Attempt.outcome_bind]
    cases ho : (n.mountRoutes routes tree mount).outcome with
    | error e =>
      rw [mountLines_bind_of_error ho, hrefused e ho]
      exact Or.inr ⟨e, [], mount, mounts, n, rfl, rfl, .nil, ho⟩
    | ok next =>
      rw [mountLines_bind_of_ok ho, hmade next ho, List.singleton_append]
      rcases ih next with ⟨m, hm, htold⟩ | ⟨e, made, last, rest, m, he, hsplit, htold, hlast⟩
      · exact Or.inl ⟨m, hm, .cons ho htold⟩
      · refine Or.inr ⟨e, mount :: made, last, rest, m, he, ?_, .cons ho htold, hlast⟩
        rw [hsplit]
        rfl

end

end Node

/-! ## 4. The call -/

theorem ApiSpec.length_parseRoutes : ∀ {paths : List (String × V)} {routes : List (Route V)},
    ApiSpec.parseRoutes paths = .ok routes → routes.length = paths.length
  | [], routes, h => by
    cases h
    rfl
  | (pattern, value) :: rest, routes, h => by
    unfold ApiSpec.parseRoutes at h
    split at h
    · cases h
    · split at h
      · cases h
      · rename_i more hmore
        cases h
        exact congrArg (· + 1) (length_parseRoutes hmore)

namespace Router

open Attempt

/-- What a set of routes has to pass before it is mounted anywhere. -/
structure Prepared (spec : ApiSpec V) (routes : List (Route V)) (tree : Node V)
    (mounts : List (List Segment)) : Prop where
  parsed : ApiSpec.parseRoutes spec.paths = .ok routes
  built : (Node.empty.insertAll [] routes).outcome = .ok tree
  points : spec.mountPoints = .ok mounts

/-- The call comes to its mounts, and the first of them is made. -/
def MountsFirst (r : Router V) (spec : ApiSpec V) : Prop :=
  ∃ routes tree mount rest m, Prepared spec routes tree (mount :: rest) ∧
    (r.root.mountRoutes routes tree mount).outcome = .ok m

section
variable {r : Router V} {spec : ApiSpec V} {routes : List (Route V)} {tree : Node V}
  {mounts : List (List Segment)}

theorem Prepared.unique (h : Prepared spec routes tree mounts) {routes' : List (Route V)}
    {tree' : Node V} {mounts' : List (List Segment)} (h' : Prepared spec routes' tree' mounts') :
    routes' = routes ∧ tree' = tree ∧ mounts' = mounts := by
  obtain rfl : routes' = routes := Except.ok.inj (h'.parsed.symm.trans h.parsed)
  exact ⟨rfl, Except.ok.inj (h'.built.symm.trans h.built),
    Except.ok.inj (h'.points.symm.trans h.points)⟩

/-- The lines of a call that comes to its mounts are those of the mounts. -/
theorem Prepared.mountLines_addSpec (h : Prepared spec routes tree mounts) (r : Router V) :
    (r.addSpec spec).mountLines = (r.root.mountAll routes tree mounts).mountLines := by
  unfold addSpec
  rw [mountLines_bind_of_ok ((outcome_ofExcept _).trans h.parsed), mountLines_bind_of_ok h.built,
    mountLines_bind_of_ok ((outcome_ofExcept _).trans h.points), Node.mountLines_insertAll]
  -- what is read from the spec is silent, and so is the router made of the tree
  show (r.root.mountAll routes tree mounts >>= fun root =>
    (pure (Router.mk root) : Attempt (Router V))).mountLines = _
  cases ho : (r.root.mountAll routes tree mounts).outcome with
  | error e => rw [mountLines_bind_of_error ho]
  | ok root =>
    rw [mountLines_bind_of_ok ho]
    exact List.append_nil _

/-- A call that does not come to its mounts is refused in silence. -/
theorem prepared_or_silent (r : Router V) (spec : ApiSpec V) :
    (∃ routes tree mounts, Prepared spec routes tree mounts) ∨
    ((¬ ∃ routes tree mounts, Prepared spec routes tree mounts) ∧
      (r.addSpec spec).mountLines = []) := by
  cases hp : ApiSpec.parseRoutes spec.paths with
  | error e =>
    refine Or.inr ⟨fun ⟨_, _, _, h⟩ => ?_, ?_⟩
    · rw [h.parsed] at hp
      cases hp
    · unfold addSpec
      rw [hp]
      rfl
  | ok routes =>
    cases ht : (Node.empty.insertAll [] routes).outcome with
    | error e =>
      refine Or.inr ⟨fun ⟨_, _, _, h⟩ => ?_, ?_⟩
      · obtain rfl := Except.ok.inj (h.parsed.symm.trans hp)
        rw [h.built] at ht
        cases ht
      · unfold addSpec
        rw [mountLines_bind_of_ok ((outcome_ofExcept _).trans hp), mountLines_bind_of_error ht,
          Node.mountLines_insertAll]
        rfl
    | ok tree =>
      cases hm : spec.mountPoints with
      | error e =>
        refine Or.inr ⟨fun ⟨_, _, _, h⟩ => ?_, ?_⟩
        · rw [h.points] at hm
          cases hm
        · unfold addSpec
          rw [mountLines_bind_of_ok ((outcome_ofExcept _).trans hp), mountLines_bind_of_ok ht,
            Node.mountLines_insertAll, hm]
          rfl
      | ok mounts => exact Or.inl ⟨routes, tree, mounts, hp, ht, hm⟩

/-- Of mounts that are told up to one that is refused, none is told exactly if it is the first one. -/
theorem told_eq_nil_iff {n m : Node V} {made : List (List Segment)} {lines : List Event}
    (h : Node.Told routes tree n made lines m) {mount : List Segment} {e : RouteError}
    (hrefused : (m.mountRoutes routes tree mount).outcome = .error e) {first : List Segment}
    {rest more : List (List Segment)} (hsplit : first :: more = made ++ mount :: rest) :
    lines = [] ↔ ¬ ∃ next, (n.mountRoutes routes tree first).outcome = .ok next := by
  cases h with
  | nil =>
    cases hsplit
    refine iff_of_true rfl ?_
    rintro ⟨next, hnext⟩
    rw [hrefused] at hnext
    cases hnext
  | cons hmade _ =>
    cases hsplit
    exact iff_of_false (List.cons_ne_nil _ _) fun hno => hno ⟨_, hmade⟩

/-- The lines of a call that succeeds, in terms of what it has mounted. -/
theorem Mounts.told {r' : Router V} (m : Mounts r spec r') :
    Node.Told m.routes m.tree r.root m.mounts (r.addSpec spec).mountLines r'.root := by
  have hprep : Prepared spec m.routes m.tree m.mounts := ⟨m.parsed, m.built, m.points⟩
  rw [hprep.mountLines_addSpec r]
  rcases Node.told_mountAll m.mounts r.root with ⟨root, hroot, htold⟩ | ⟨e, -, -, -, -, he, -⟩
  · rw [m.mounted] at hroot
    cases hroot
    exact htold
  · rw [m.mounted] at he
    cases he

/-- A refused call is silent exactly if its first mount was not made. -/
theorem silent_iff_of_refused {e : RouteError} (h : (r.addSpec spec).outcome = .error e) :
    (r.addSpec spec).mountLines = [] ↔ ¬ r.MountsFirst spec := by
  rcases prepared_or_silent r spec with ⟨routes, tree, mounts, hprep⟩ | ⟨hnone, hsilent⟩
  · rw [hprep.mountLines_addSpec r]
    have hout := outcome_addSpec_of (r := r) hprep.parsed hprep.built hprep.points
    rcases Node.told_mountAll mounts r.root with
      ⟨root, hroot, -⟩ | ⟨f, made, mount, rest, m, -, rfl, htold, hrefused⟩
    · rw [hroot] at hout
      exact absurd (h.symm.trans hout) nofun
    · obtain ⟨first, more, hsplit⟩ : ∃ first more, first :: more = made ++ mount :: rest := by
        cases made with
        | nil => exact ⟨mount, rest, rfl⟩
        | cons x xs => exact ⟨x, xs ++ mount :: rest, rfl⟩
      rw [told_eq_nil_iff htold hrefused hsplit]
      refine not_congr ⟨fun ⟨next, hnext⟩ => ?_, fun ⟨routes', tree', x, xs, next, h', hnext⟩ => ?_⟩
      · exact ⟨routes, tree, first, more, next, hsplit ▸ hprep, hnext⟩
      · -- the mounts are those that the call comes to
        obtain ⟨rfl, rfl, hmounts⟩ := hprep.unique h'
        rw [← hsplit] at hmounts
        cases hmounts
        exact ⟨next, hnext⟩
  · refine iff_of_true hsilent ?_
    rintro ⟨routes, tree, mount, rest, -, hprep, -⟩
    exact hnone ⟨routes, tree, mount :: rest, hprep⟩

end

/-- **The log tells the truth about mounts exactly if the call is not refused after its first one.** For
    every router and every set of routes:

    * a call that succeeds writes one line for each mount, in their order, one for the root if the set
      names none; each line has the number of the routes, and says that they share one subtree exactly
      if the end of the mount was free when it was made;
    * a call that is refused leaves the router as it was, and it writes no line about a mount if and only
      if its first mount was not made. -/
theorem spec_mounted_iff (r : Router V) (spec : ApiSpec V) :
    let attempt := r.addSpec spec
    (∀ r', attempt.outcome = .ok r' → ∃ m : Mounts r spec r', m.routes.length = spec.paths.length ∧
      Node.Told m.routes m.tree r.root m.mounts attempt.mountLines r'.root) ∧
    (∀ e, attempt.outcome = .error e →
      r.after (.addSpec spec) = r ∧ (attempt.mountLines = [] ↔ ¬ r.MountsFirst spec)) := by
  intro attempt
  refine ⟨fun r' h => ?_, fun e h => ⟨?_, silent_iff_of_refused h⟩⟩
  · obtain ⟨m⟩ := mounts_of_addSpec h
    exact ⟨m, ApiSpec.length_parseRoutes m.parsed, m.told⟩
  · exact after_of_refused ((Changed.outcome_replace r _).trans h)

/-- Three mounts, of which the second is where the first is and the third below it, and a set of routes
    whose first mount is refused afterwards. -/
theorem spec_mounted_page :
    let spec : ApiSpec String := ⟨["/{site:v1}", "/v1", "/v1/page"], [("/page", "page")]⟩
    let other : ApiSpec String := ⟨["/{host:v1}", "/v2"], [("/page", "page")]⟩
    let r := empty.after (.addSpec spec)
    (∃ m : Mounts empty spec r,
      Node.Told m.routes m.tree Node.empty m.mounts (empty.addSpec spec).mountLines r.root) ∧
    (empty.addSpec spec).mountLines = [.specMounted "/{site:v1}" 1 true, .specMounted "/v1" 1 false,
      .specMounted "/v1/page" 1 false] ∧
    r.after (.addSpec other) = r ∧ ¬ r.MountsFirst other := by
  intro spec other r
  have hmade : (empty.addSpec spec).outcome = .ok r := by with_unfolding_all rfl
  obtain ⟨m, -, htold⟩ := (spec_mounted_iff empty spec).1 r hmade
  obtain ⟨e, he⟩ : ∃ e, (r.addSpec other).outcome = .error e := ⟨_, by with_unfolding_all rfl⟩
  obtain ⟨hsame, hsilent⟩ := (spec_mounted_iff r other).2 e he
  exact ⟨⟨m, htold⟩, by with_unfolding_all rfl, hsame, hsilent.mp (by with_unfolding_all rfl)⟩

/-- The second of two mounts has another name for a component and is refused. The first one is told, and
    it is not in the router. -/
theorem mounted_in_vain :
    let r : Router String := empty
    let spec : ApiSpec String := ⟨["/{site:v1}", "/{host:v1}"], [("/page", "page")]⟩
    (r.addSpec spec).outcome.toOption.isNone ∧
      (r.addSpec spec).events = [.routeInserted "/page", .specMounted "/{site:v1}" 1 true] ∧
      (r.after (.addSpec spec)).routes = [] := by
  intro r spec
  exact ⟨by with_unfolding_all rfl, by with_unfolding_all rfl, by with_unfolding_all rfl⟩

end Router

end RouteTree
