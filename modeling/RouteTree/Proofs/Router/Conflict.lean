import RouteTree.Proofs.Router.History

/-!
# Names that conflict

An insertion is refused exactly where an earlier route has another name for a component of the path.
This file says so in terms of the routes alone, `ConflictAt`, and proves it in two steps:

* `clash_iff` translates a clash with the name of a node into a conflict with a route, for a tree that
  shows the routes; where a check of the names stops is known from `checkNames_error_iff`;
* `insert_refused_iff` puts the first conflict, the error and the log together.
-/

namespace RouteTree

open Segment (keysOf bindsAt)

variable {V : Type}

/-! ## 1. Conflicts between routes -/

/-- Both paths have the same keys up to position `j`, and there each has a template, with different
    names. -/
structure ConflictAt (P Q : List Segment) (j : Nat) (existing requested : String) : Prop where
  keys : ∀ i ≤ j, (P[i]?).map Segment.key = (Q[i]?).map Segment.key
  asks : ∃ t, P[j]? = some (.param t) ∧ t.name = requested
  has : ∃ t, Q[j]? = some (.param t) ∧ t.name = existing
  differ : existing ≠ requested

theorem keysOf_take_eq_iff (P Q : List Segment) (j : Nat) :
    keysOf (P.take (j + 1)) = keysOf (Q.take (j + 1))
      ↔ ∀ i ≤ j, (P[i]?).map Segment.key = (Q[i]?).map Segment.key := by
  unfold keysOf
  rw [List.ext_getElem?_iff]
  constructor
  · intro h i hi
    have := h i
    rwa [List.getElem?_map, List.getElem?_map, List.getElem?_take_of_lt (by omega),
      List.getElem?_take_of_lt (by omega)] at this
  · intro h i
    rw [List.getElem?_map, List.getElem?_map]
    by_cases hi : i ≤ j
    · rw [List.getElem?_take_of_lt (by omega), List.getElem?_take_of_lt (by omega)]
      exact h i hi
    · rw [List.getElem?_take_eq_none (by omega), List.getElem?_take_eq_none (by omega)]

theorem length_keysOf_take {P : List Segment} {j : Nat} {s : Segment} (h : P[j]? = some s) :
    (keysOf (P.take (j + 1))).length = j + 1 := by
  have hj : j < P.length := (List.getElem?_eq_some_iff.mp h).1
  rw [keysOf, List.length_map, List.length_take]
  omega

/-- A path binds a name at the keys that lead to one of its templates. -/
theorem bindsAt_iff_take (Q : List Segment) (K : List Key) (name : String) :
    bindsAt Q K = some name
      ↔ ∃ j t, Q[j]? = some (.param t) ∧ t.name = name ∧ K = keysOf (Q.take (j + 1)) := by
  rw [Segment.bindsAt_iff]
  constructor
  · rintro ⟨front, t, back, rfl, ht, rfl⟩
    refine ⟨front.length, t, by simp, ht, ?_⟩
    rw [List.take_length_add_append]
    rfl
  · rintro ⟨j, t, hj, ht, rfl⟩
    obtain ⟨hlt, hget⟩ := List.getElem?_eq_some_iff.mp hj
    refine ⟨Q.take j, t, Q.drop (j + 1), ?_, ht, ?_⟩
    · rw [← hget, List.getElem_cons_drop, List.take_append_drop]
    · rw [List.take_succ_eq_append_getElem hlt, hget]

namespace Node

/-- **A clash in the tree is a conflict with a route** that the tree shows. -/
theorem clash_iff {n : Node V} {t : Table V} (hn : n.Shows t) (P : List Segment) (j : Nat)
    (a b : String) : n.Clash P j a b ↔ ∃ Q ∈ t, ConflictAt P Q.1 j a b := by
  constructor
  · rintro ⟨u, hu, hb, ha, hab⟩
    obtain ⟨Q, hQ, hbind⟩ := (hn.name _ a).mp ha
    obtain ⟨i, w, hw, hwa, hK⟩ := (bindsAt_iff_take Q.1 _ a).mp hbind
    have hij : i = j := by
      have hlen := length_keysOf_take hu
      rw [hK, length_keysOf_take hw] at hlen
      omega
    subst hij
    exact ⟨Q, hQ, (keysOf_take_eq_iff P Q.1 i).mp hK, ⟨u, hu, hb⟩, ⟨w, hw, hwa⟩, hab⟩
  · rintro ⟨Q, hQ, hkeys, ⟨u, hu, hb⟩, ⟨w, hw, hwa⟩, hab⟩
    refine ⟨u, hu, hb, (hn.name _ a).mpr ⟨Q, hQ, ?_⟩, hab⟩
    exact (bindsAt_iff_take Q.1 _ a).mpr ⟨j, w, hw, hwa, (keysOf_take_eq_iff P Q.1 j).mpr hkeys⟩

/-- The check of the names refuses a path at its first conflict with a route, with both names. -/
theorem checkNames_error_of_shows {n : Node V} {t : Table V} (hn : n.Shows t) (P : List Segment)
    (e : RouteError) : n.checkNames P = .error e ↔ ∃ j a b, e = .nameConflict a b ∧
      (∃ Q ∈ t, ConflictAt P Q.1 j a b) ∧ ∀ i < j, ∀ Q ∈ t, ∀ c d, ¬ ConflictAt P Q.1 i c d := by
  rw [checkNames_error_iff]
  constructor
  · rintro ⟨j, a, b, he, hj, hmin⟩
    refine ⟨j, a, b, he, (clash_iff hn P j a b).mp hj, fun i hi Q hQ c d hc => ?_⟩
    exact hmin i hi c d ((clash_iff hn P i c d).mpr ⟨Q, hQ, hc⟩)
  · rintro ⟨j, a, b, he, hj, hmin⟩
    refine ⟨j, a, b, he, (clash_iff hn P j a b).mpr hj, fun i hi c d hc => ?_⟩
    obtain ⟨Q, hQ, hcQ⟩ := (clash_iff hn P i c d).mp hc
    exact hmin i hi Q hQ c d hcQ

end Node

/-! ## 2. The log -/

/-- The line says that a route was inserted. -/
def Event.isRouteInserted : Event → Bool
  | .routeInserted _ => true
  | _ => false

theorem countP_cutEvents (segments : List Segment) :
    (Node.cutEvents segments).countP Event.isRouteInserted = 0 := by
  unfold Node.cutEvents
  dsimp only
  split
  · split <;> rfl
  · rfl

theorem events_insert_of_error {r : Router V} {segments : List Segment} {value : V} {e : RouteError}
    (h : r.root.checkNames (Node.cutAfterCatchAll segments) = .error e) :
    (r.insert segments value).events = Node.cutEvents segments := by
  rw [Router.insert, Changed.events_map]
  rcases Node.insert_cases r.root segments value with ⟨_, -, hi⟩ | ⟨_, hc, -, -⟩
  · rw [hi]
  · rw [h] at hc
    cases hc

theorem events_insert_of_ok {r : Router V} {segments : List Segment} {value : V}
    (h : r.root.checkNames (Node.cutAfterCatchAll segments) = .ok ()) :
    (r.insert segments value).events = Node.cutEvents segments
      ++ [.routeInserted (Segment.displayAll (Node.cutAfterCatchAll segments))] := by
  rw [Router.insert, Changed.events_map]
  rcases Node.insert_cases r.root segments value with ⟨_, hc, -⟩ | ⟨_, -, -, hi⟩
  · rw [h] at hc
    cases hc
  · rw [hi]

/-! ## 3. Insertions -/

section
variable {r : Router V} {t : Table V} {segments : List Segment} {value : V}

theorem outcome_insert_error_iff (e : RouteError) : (r.insert segments value).outcome = .error e
    ↔ r.root.checkNames (Node.cutAfterCatchAll segments) = .error e := by
  rw [Router.outcome_insert, ← Node.extend_outcome r.root value]
  cases r.root.extend value (Node.cutAfterCatchAll segments) <;> simp [Except.map]

/-- **The first conflict decides**: an insertion is refused with the names of it. -/
theorem refused_at_first (hr : r.root.Shows t) {j : Nat} {a b : String} {Q : Route V} (hQ : Q ∈ t)
    (hj : ConflictAt (Node.cutAfterCatchAll segments) Q.1 j a b)
    (hmin : ∀ i < j, ∀ R ∈ t, ∀ c d, ¬ ConflictAt (Node.cutAfterCatchAll segments) R.1 i c d) :
    (r.insert segments value).outcome = .error (.nameConflict a b) :=
  (outcome_insert_error_iff _).mpr
    ((Node.checkNames_error_of_shows hr _ _).mpr ⟨j, a, b, rfl, ⟨Q, hQ, hj⟩, hmin⟩)

theorem conflict_of_refused (hr : r.root.Shows t) {e : RouteError}
    (h : (r.insert segments value).outcome = .error e) :
    ∃ a b, e = .nameConflict a b ∧
      ∃ Q ∈ t, ∃ j, ConflictAt (Node.cutAfterCatchAll segments) Q.1 j a b := by
  obtain ⟨j, a, b, he, ⟨Q, hQ, hj⟩, -⟩ :=
    (Node.checkNames_error_of_shows hr _ _).mp ((outcome_insert_error_iff e).mp h)
  exact ⟨a, b, he, Q, hQ, j, hj⟩

theorem refused_of_conflict (hr : r.root.Shows t) {j : Nat} {a b : String} {Q : Route V} (hQ : Q ∈ t)
    (hj : ConflictAt (Node.cutAfterCatchAll segments) Q.1 j a b) :
    ∃ c d, (r.insert segments value).outcome = .error (.nameConflict c d) := by
  obtain ⟨c, d, h⟩ := Node.refused_of_clash ((Node.clash_iff hr _ j a b).mpr ⟨Q, hQ, hj⟩)
  exact ⟨c, d, (outcome_insert_error_iff _).mpr h⟩

theorem events_of_refused {e : RouteError} (h : (r.insert segments value).outcome = .error e) :
    (r.insert segments value).events.countP Event.isRouteInserted = 0 := by
  rw [events_insert_of_error ((outcome_insert_error_iff e).mp h), countP_cutEvents]

theorem events_of_inserted {r' : Router V} (h : (r.insert segments value).outcome = .ok r') :
    (r.insert segments value).events.countP Event.isRouteInserted = 1 := by
  cases hc : r.root.checkNames (Node.cutAfterCatchAll segments) with
  | error e =>
    rw [(outcome_insert_error_iff e).mpr hc] at h
    cases h
  | ok _ =>
    rw [events_insert_of_ok hc, List.countP_append, countP_cutEvents]
    rfl

end

theorem shows_insertions (steps : List (Route V)) :
    (Router.empty.afterAll (steps.map fun s => Call.insert s.1 s.2)).root.Shows
      (Router.empty.history (steps.map fun s => Call.insert s.1 s.2)) := by
  refine Router.shows_history (fun c hc => ?_) (fun c hc => ?_) <;>
  · obtain ⟨s, -, rfl⟩ := List.mem_map.mp hc
    trivial

/-- **An insertion is refused exactly on a conflict of names, as a whole.** For the router that any
    insertions, refused ones among them, have made of the empty one: the next insertion is refused if
    and only if an accepted route conflicts with its path; the first such position decides both names
    of the error. A refusal leaves the router as it was, though the tree is changed in place, and logs no
    inserted route. Otherwise the insertion succeeds and logs one: a tree that has grown along checked
    names was never stopped halfway. -/
theorem insert_refused_iff (steps : List (Route V)) (segments : List Segment) (value : V) :
    let calls := steps.map fun s => Call.insert s.1 s.2
    let r := Router.empty.afterAll calls
    let t := Router.empty.history calls
    let P := Node.cutAfterCatchAll segments
    let attempt := r.insert segments value
    ((∃ a b, attempt.outcome = .error (.nameConflict a b))
      ↔ ∃ Q ∈ t, ∃ j a b, ConflictAt P Q.1 j a b) ∧
    (∀ j, (∀ i < j, ∀ Q ∈ t, ∀ a b, ¬ ConflictAt P Q.1 i a b) →
      ∀ Q ∈ t, ∀ a b, ConflictAt P Q.1 j a b → attempt.outcome = .error (.nameConflict a b)) ∧
    (∀ e, attempt.outcome = .error e → (∃ a b, e = .nameConflict a b) ∧
      attempt.state = r ∧ r.after (.insert segments value) = r ∧
      attempt.events.countP Event.isRouteInserted = 0) ∧
    ((¬ ∃ Q ∈ t, ∃ j a b, ConflictAt P Q.1 j a b) →
      (∃ r', attempt.outcome = .ok r') ∧ attempt.events.countP Event.isRouteInserted = 1) ∧
    (r.root.checkNames P = .ok () → ∃ n', r.root.grow value P = .ok n') := by
  intro calls r t P attempt
  have hr : r.root.Shows t := shows_insertions steps
  refine ⟨⟨?_, ?_⟩, ?_, ?_, ?_, Node.grow_of_checkNames value⟩
  · rintro ⟨a, b, h⟩
    obtain ⟨c, d, -, Q, hQ, j, hj⟩ := conflict_of_refused hr h
    exact ⟨Q, hQ, j, c, d, hj⟩
  · rintro ⟨Q, hQ, j, a, b, hj⟩
    exact refused_of_conflict hr hQ hj
  · intro j hmin Q hQ a b hj
    exact refused_at_first hr hQ hj hmin
  · intro e h
    obtain ⟨a, b, he, -⟩ := conflict_of_refused hr h
    exact ⟨⟨a, b, he⟩, Router.state_insert_of_refused h, Router.after_of_refused h, events_of_refused h⟩
  · intro hnone
    cases h : attempt.outcome with
    | error e =>
      obtain ⟨a, b, -, Q, hQ, j, hj⟩ := conflict_of_refused hr h
      exact absurd ⟨Q, hQ, j, a, b, hj⟩ hnone
    | ok r' => exact ⟨⟨r', rfl⟩, events_of_inserted h⟩

/-- Two names for one component. -/
example : ((Router.empty.after (.insert [.param ⟨"a", none, none⟩] 1)).insert
    [.param ⟨"b", none, none⟩, .literal "x"] 2).outcome = .error (.nameConflict "a" "b") := rfl

end RouteTree
