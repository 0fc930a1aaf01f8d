import RouteTree.Proofs.Router.History
import RouteTree.Router.Lookup

/-!
# Requests and histories

What a request gets is what the table of accepted routes answers: `reach` walks among the keys of the
routes, `Table.value` is the value where it ends, and `Table.answer` puts them together.

* `walk_reached` compares the walk down a tree with the walk among its keys, one component at a time;
* `walk_unread` says when the walk leaves the tree only at the last component;
* `lookup_eq_answer` is the comparison for a router and its history.
-/

namespace RouteTree

variable {V : Type}

/-- What a request gets: the value where it ends. Without one, a request for a listing gets a match
    without a value if only its last component may lead nowhere. -/
def Table.answer (t : Table V) (path : List String) : Option (Option V) :=
  match (reach t.passes [] path).bind t.value with
  | some v => some (some v)
  | none =>
    if asksListing path ∧ (reach t.passes [] path.dropLast).isSome then some none else none

theorem reach_congr {p q : List Key → Bool} (h : ∀ K k, p (K ++ [k]) = q (K ++ [k])) :
    ∀ (path : List String) (K : List Key), reach p K path = reach q K path
  | [], _ => rfl
  | c :: rest, K => by
    rw [reach, reach, h, h, h, reach_congr h rest, reach_congr h rest]

/-- The walk among some keys stays there. -/
theorem reach_admitted {p : List Key → Bool} : ∀ (path : List String) {K L : List Key},
    reach p K path = some L → L = K ∨ p L = true
  | [], K, L, h => by
    cases h
    exact Or.inl rfl
  | c :: rest, K, L, h => by
    have step : ∀ k, p (K ++ [k]) = true → reach p (K ++ [k]) rest = some L → L = K ∨ p L = true := by
      intro k hk hr
      rcases reach_admitted rest hr with rfl | hL
      · exact Or.inr hk
      · exact Or.inr hL
    rw [reach] at h
    split at h
    · exact step _ ‹_› h
    · split at h
      · cases h
      · split at h
        · exact step _ ‹_› h
        · split at h
          · cases h
            exact Or.inr ‹_›
          · cases h

namespace Node

/-! ## 1. Where a walk ends -/

/-- Where a node that does not loop sends a component, by its children. -/
theorem turn_of_not_loops {n : Node V} (hl : n.loops = false) (c : String) :
    n.turn c = match n.child? (.exact c) with
      | some child => .child child
      | none =>
        if c = "" then .nowhere
        else match n.child? .wild with
          | some child => .child child
          | none =>
            match n.child? .catchAll with
            | some child => .rest child
            | none => .nowhere := by
  have hc : n.catchAllChild? = n.child? .catchAll := by simp [catchAllChild?, hl]
  unfold turn
  cases n.child? (.exact c) with
  | some child => rfl
  | none =>
    cases n.child? .wild with
    | some child => rfl
    | none =>
      exact congrArg (fun rest => if c = "" then Turn.nowhere else match rest with
        | some child => .rest child
        | none => .nowhere) hc

theorem at?_snoc {root n : Node V} {K : List Key} (h : root.at? K = some n) (k : Key) :
    root.at? (K ++ [k]) = n.child? k := by
  rw [at?_append, h]
  show n.at? [k] = _
  rw [at?_cons]
  cases n.child? k <;> rfl

/-- **A walk down the tree is a walk among its keys.** The invariant is the node the walk has come to:
    the one at the end of `K`, where `K` does not end in a catch-all. -/
theorem walk_reached {root : Node V} (hroot : LoopsAtEnds root) :
    ∀ (path : List String) {K : List Key} {n : Node V} (params : Params), root.at? K = some n →
      K.getLast? ≠ some .catchAll → (n.walk params path).reached
        = (reach (fun L => (root.at? L).isSome) K path).bind fun L => root.at? L
  | [], K, n, params, hn, _ => hn.symm
  | c :: rest, K, n, params, hn, hK => by
    have hl : n.loops = false := Bool.eq_false_iff.mpr fun hl => hK (hroot K n hn hl)
    have step : ∀ {k : Key} {child : Node V} (ps : Params), n.child? k = some child → k ≠ .catchAll →
        (child.walk ps rest).reached
          = (reach (fun L => (root.at? L).isSome) (K ++ [k]) rest).bind fun L => root.at? L := by
      intro k child ps hc hk
      refine walk_reached hroot rest ps (by rw [at?_snoc hn, hc]) ?_
      rw [List.getLast?_concat]
      exact fun h => hk (Option.some.inj h)
    rw [walk, turn_of_not_loops hl, reach]
    simp only [at?_snoc hn]
    cases hx : n.child? (.exact c) with
    | some child =>
      rw [Option.isSome_some, if_pos rfl]
      exact step _ hx (by simp)
    | none =>
      rw [Option.isSome_none, if_neg Bool.false_ne_true]
      by_cases hc : c = ""
      · simp only [if_pos hc]
        rfl
      · simp only [if_neg hc]
        cases hw : n.child? .wild with
        | some child =>
          rw [Option.isSome_some, if_pos rfl]
          exact step _ hw (by simp)
        | none =>
          rw [Option.isSome_none, if_neg Bool.false_ne_true]
          cases ha : n.child? .catchAll with
          | some child =>
            rw [Option.isSome_some, if_pos rfl, Option.bind_some, at?_snoc hn, ha]
          | none => rfl

theorem passed_ne_nil {path : List String} (h : path ≠ []) (n : Node V) (params : Params) :
    (n.walk params path).passed ≠ [] := by
  cases path with
  | nil => exact absurd rfl h
  | cons c rest =>
    rw [walk]
    cases n.turn c <;> exact List.cons_ne_nil _ _

/-- What a walk lists is decided by the last node it leaves behind. -/
theorem listing_walk_child (n child : Node V) {path : List String} (h : path ≠ []) (params : Params) :
    ({ child.walk params path with passed := n :: (child.walk params path).passed } : Walk V).listing
      = (child.walk params path).listing := by
  unfold Walk.listing
  cases hp : (child.walk params path).passed with
  | nil => exact absurd hp (passed_ne_nil h child params)
  | cons m rest => rw [List.getLast?_cons_cons]

theorem walk_unread_of_reached : ∀ (path : List String) {n : Node V} {params : Params},
    (n.walk params path).reached.isSome = true → (n.walk params path).unread = []
  | [], _, _, _ => rfl
  | c :: rest, n, params, h => by
    rw [walk] at h ⊢
    cases ht : n.turn c with
    | child child =>
      rw [ht] at h
      exact walk_unread_of_reached rest h
    | rest child => rfl
    | nowhere =>
      rw [ht] at h
      cases h

/-- A walk leaves nothing unread if and only if it is still in the tree before the last component. -/
theorem walk_unread : ∀ (path : List String) (n : Node V) (params : Params),
    (n.walk params path).unread = [] ↔ (n.walk params path.dropLast).reached.isSome = true
  | [], _, _ => by simp [walk]
  | [c], n, params => by
    simp only [walk, List.dropLast_singleton]
    cases n.turn c <;> simp
  | c :: d :: rest, n, params => by
    rw [List.dropLast_cons_of_ne_nil (List.cons_ne_nil d rest), walk, walk]
    cases n.turn c with
    | child child => exact walk_unread (d :: rest) child _
    | rest child => simp
    | nowhere => simp

theorem Shows.isSome_at?_snoc {root : Node V} {t : Table V} (h : root.Shows t) (K : List Key)
    (k : Key) : (root.at? (K ++ [k])).isSome = t.passes (K ++ [k]) := by
  rw [h.present]
  simp

/-- Where a walk ends in a tree that shows a table. -/
theorem Shows.walk_reached {root : Node V} {t : Table V} (h : root.Shows t) (params : Params)
    (path : List String) : (root.walk params path).reached
      = (reach t.passes [] path).bind fun L => root.at? L := by
  have hw := Node.walk_reached h.loops path params (K := []) (n := root) rfl (by simp)
  rw [hw, reach_congr (p := fun L => (root.at? L).isSome) h.isSome_at?_snoc]

theorem Shows.walk_reached_isSome {root : Node V} {t : Table V} (h : root.Shows t) (params : Params)
    (path : List String) :
    (root.walk params path).reached.isSome = (reach t.passes [] path).isSome := by
  rw [h.walk_reached]
  cases hr : reach t.passes [] path with
  | none => rfl
  | some L =>
    show (root.at? L).isSome = true
    rw [h.present]
    rcases reach_admitted path hr with rfl | hL
    · rfl
    · rw [hL, Bool.or_true]

theorem Shows.walk_value {root : Node V} {t : Table V} (h : root.Shows t) (params : Params)
    (path : List String) : (root.walk params path).value = (reach t.passes [] path).bind t.value := by
  rw [Walk.value, h.walk_reached]
  cases reach t.passes [] path with
  | none => rfl
  | some L => exact h.value L

end Node

/-! ## 2. Lookups -/

namespace Router

variable [RouteValue V]

/-- What a lookup gives, by its walk: nothing if the walk left the tree with components unread, or
    ends without a value and asks for no listing. -/
theorem lookup_by_walk (r : Router V) (path : List String) :
    (r.lookup path).value.map RouteMatch.value =
      match (r.root.walk [] path).value with
      | some v => some (some v)
      | none => if asksListing path ∧ (r.root.walk [] path).unread = [] then some none else none := by
  unfold lookup
  dsimp only
  cases hv : (r.root.walk [] path).value with
  | some v =>
    have hu : (r.root.walk [] path).unread = [] := by
      refine Node.walk_unread_of_reached path ?_
      cases hr : (r.root.walk [] path).reached with
      | none => simp [Walk.value, hr] at hv
      | some n => rfl
    simp [hu, Walk.result, hv]
  | none =>
    by_cases hu : (r.root.walk [] path).unread = []
    · by_cases ha : asksListing path = true
      · simp [hu, ha, Walk.result, hv]
      · simp only [hu, ha, ne_eq, not_true_eq_false, if_false, Option.isSome_none, Bool.or_self,
          Bool.false_eq_true, false_and]
        rfl
    · simp [hu]

theorem lookup_of_shows {r : Router V} {t : Table V} (h : r.root.Shows t) (path : List String) :
    (r.lookup path).value.map RouteMatch.value = t.answer path := by
  have hu : (r.root.walk [] path).unread = [] ↔ (reach t.passes [] path.dropLast).isSome = true := by
    rw [Node.walk_unread, h.walk_reached_isSome]
  rw [lookup_by_walk, h.walk_value, Table.answer]
  simp only [hu]

/-- **A lookup is the greedy match over the accepted routes.** After any calls, refused ones among
    them, that mount no empty set of routes and mount nothing under a template that may be absent or
    takes all that is left, a request gets what the history of the router answers. -/
theorem lookup_eq_answer {calls : List (Call V)} (hf : ∀ c ∈ calls, c.Filled)
    (hp : ∀ c ∈ calls, c.PlainMounts) (path : List String) :
    ((empty.afterAll calls).lookup path).value.map RouteMatch.value
      = (empty.history calls).answer path :=
  lookup_of_shows (shows_history hf hp) path

/-- A request under a mount that already carried a route. -/
theorem lookup_under_used_mount :
    let calls : List (Call String) :=
      [.insert [.literal "v1"] "root", .addSpec ⟨["/v1"], [("/{page}", "page")]⟩]
    ((empty.afterAll calls).lookup ["v1", "x"]).value.map RouteMatch.value = some (some "page") := by
  intro calls
  have hf : ∀ c ∈ calls, c.Filled := by simp [calls, Call.Filled]
  have hp : ∀ c ∈ calls, c.PlainMounts := by
    have hm : ApiSpec.mountPoints (⟨["/v1"], [("/{page}", "page")]⟩ : ApiSpec String)
        = .ok [[.literal "v1"]] := by with_unfolding_all rfl
    simp [calls, Call.PlainMounts, hm, Segment.isPlain, Segment.isOptional, Segment.isCatchAll]
  rw [lookup_eq_answer hf hp]
  with_unfolding_all rfl

end Router

end RouteTree
