import RouteTree.Proofs.Router.Enumeration
import RouteTree.Proofs.Router.Greedy

/-!
# The shape of a router's tree

Whatever calls have made of the empty router, its tree has one shape: a branch is there for a value, an
open component has a name, and a catch-all is an end. Grafts, listings and lookups rely on it.

* `isCut_history`: nothing follows a catch-all in an accepted route, so no key comes after one;
* `Node.Regular` is the shape, said of every node of the tree;
* `Shows.regular` reads it off a table of cut routes that a tree shows, and `regular_afterAll` is the
  conclusion for the runs of a router.
-/

namespace RouteTree

open Segment (keysOf IsCut isCut_cut)

variable {V : Type}

/-! ## 1. Routes end at their catch-all -/

namespace Segment

theorem isCatchAll_of_key {s : Segment} (h : s.key = .catchAll) : s.isCatchAll = true := by
  cases hs : s.isCatchAll with
  | true => rfl
  | false => exact absurd h (key_ne_catchAll hs)

theorem IsCut.behind : ∀ {front rest : List Segment}, IsCut (front ++ rest) → IsCut rest
  | [], _, h => h
  | _ :: _, _, h => IsCut.behind h.tail

/-- A path that is cut has no key behind the one of a catch-all. -/
theorem IsCut.nil_of_keysOf {path : List Segment} (h : IsCut path) {P K : List Key}
    (hkeys : keysOf path = P ++ .catchAll :: K) : K = [] := by
  obtain ⟨front, tail, rfl, -, htail⟩ := List.map_eq_append_iff.mp hkeys
  obtain ⟨s, back, rfl, hs, rfl⟩ := List.map_eq_cons_iff.mp htail
  rw [h.behind.rest_eq_nil (isCatchAll_of_key hs)]
  rfl

end Segment

theorem Call.isCut_routes {c : Call V} : ∀ route ∈ c.routes, IsCut route.1 := by
  intro route h
  cases c with
  | insert segments value =>
    rw [List.mem_singleton.mp h]
    exact isCut_cut segments
  | insertPattern pattern value =>
    rw [Call.routes] at h
    split at h
    · rw [List.mem_singleton.mp h]
      exact isCut_cut _
    · cases h
  | addSpec spec =>
    rw [Call.routes] at h
    split at h
    · obtain ⟨row, -, rfl⟩ := List.mem_map.mp h
      exact isCut_cut row.1
    · cases h

theorem isCut_history {calls : List (Call V)} {r : Router V} :
    ∀ route ∈ r.history calls, IsCut route.1 := by
  intro route h
  obtain ⟨c, -, hroute⟩ := Router.exists_call_of_mem_history h
  exact Call.isCut_routes route hroute

/-- The keys of a table of cut routes end at a catch-all, where the table has a value. -/
theorem Table.passes_catchAll {t : Table V} (ht : ∀ route ∈ t, IsCut route.1) {P K : List Key}
    (h : t.passes (P ++ .catchAll :: K) = true) :
    K = [] ∧ (t.value (P ++ [.catchAll])).isSome = true := by
  obtain ⟨route, hmem, hpre⟩ := List.any_eq_true.mp h
  obtain ⟨L, hL⟩ := List.isPrefixOf_iff_prefix.mp hpre
  have hkeys : keysOf route.1 = P ++ .catchAll :: (K ++ L) := by
    rw [← hL, List.append_assoc]
    rfl
  have hnil : K ++ L = [] := (ht route hmem).nil_of_keysOf hkeys
  rw [hnil] at hkeys
  refine ⟨(List.append_eq_nil_iff.mp hnil).1, ?_⟩
  rw [← hkeys]
  exact Table.value_isSome_of_mem hmem

/-! ## 2. The shape -/

namespace Node

/-- **The shape of a router's tree**, said of every node. -/
structure Regular (root : Node V) : Prop where
  /-- The children of a node stand in the order of their keys, and no two of them have one key. So every
      node of the tree is at the end of its keys. -/
  order : ∀ K n, root.at? K = some n → Assoc.Sorted n.edges
  /-- A node below the root has a value, or there is one below it. -/
  fruitful : ∀ K n, root.at? K = some n → K ≠ [] → n.Bears
  /-- An open child has a name. -/
  wild : ∀ K n child, root.at? K = some n → n.child? .wild = some child → child.name.isSome = true
  /-- A child that takes all that is left has a name and a value, it is its own child for what is left,
      and it has no other. -/
  catchAll : ∀ K n child, root.at? K = some n → n.catchAllChild? = some child →
    child.name.isSome = true ∧ child.value.isSome = true ∧ child.loops = true ∧ child.edges = []
  /-- No other node is its own child. -/
  loops : ∀ K n, root.at? K = some n → n.loops = true → K.getLast? = some .catchAll

theorem edges_eq_nil {n : Node V} (h : ∀ k, n.child? k = none) : n.edges = [] := by
  cases he : n.edges with
  | nil => rfl
  | cons e rest =>
    have hk := h e.1
    rw [child?, he, Assoc.lookup_cons, if_pos rfl] at hk
    cases hk

section
variable {root : Node V} {t : Table V}

theorem Shows.passes_of_at? (h : root.Shows t) {K : List Key} (hK : K ≠ []) {n : Node V}
    (hn : root.at? K = some n) : t.passes K = true := by
  have hp := h.present K
  rw [hn, decide_eq_false hK, Bool.false_or] at hp
  exact hp.symm

/-- A node that some template must have led to has its name. -/
theorem Shows.name_isSome (h : root.Shows t) {P : List Key} {k : Key} (hk : k = .wild ∨ k = .catchAll)
    {n : Node V} (hn : root.at? (P ++ [k]) = some n) : n.name.isSome = true := by
  have hp := h.passes_of_at? (List.append_ne_nil_of_right_ne_nil P (List.cons_ne_nil k [])) hn
  obtain ⟨a, ha⟩ := Table.exists_names hp hk
  have hname := (h.name (P ++ [k]) a).mpr ha
  rw [hn] at hname
  have hname : n.name = some a := hname
  rw [hname]
  rfl

/-- The node of a catch-all, in a tree that shows cut routes. -/
theorem Shows.at_catchAll (h : root.Shows t) (hc : root.Canonical) (ht : ∀ route ∈ t, IsCut route.1)
    {P : List Key} {n : Node V} (hn : root.at? (P ++ [.catchAll]) = some n) :
    n.name.isSome = true ∧ n.value.isSome = true ∧ n.loops = true ∧ n.edges = [] := by
  have hp := h.passes_of_at? (List.append_ne_nil_of_right_ne_nil P (List.cons_ne_nil _ [])) hn
  refine ⟨h.name_isSome (Or.inr rfl) hn, ?_, hc.ends _ n hn List.getLast?_concat, ?_⟩
  · have hv := h.value (P ++ [.catchAll])
    rw [hn] at hv
    have hv : n.value = t.value (P ++ [.catchAll]) := hv
    rw [hv]
    exact (Table.passes_catchAll ht hp).2
  · refine edges_eq_nil fun k => ?_
    cases hk : n.child? k with
    | none => rfl
    | some child =>
      -- a route would go on behind its catch-all
      have hchild : root.at? (P ++ [.catchAll, k]) = some child := by
        rw [← at?_snoc hn k, List.append_assoc] at hk
        exact hk
      have hbelow := h.passes_of_at? (List.append_ne_nil_of_right_ne_nil P (List.cons_ne_nil _ _)) hchild
      cases (Table.passes_catchAll ht hbelow).1

/-- **A tree that shows a table of cut routes has the shape**, if the children of its nodes stand in
    order and its branches lead to values. -/
theorem Shows.regular (h : root.Shows t) (hc : root.Canonical) (hs : root.Sound)
    (ht : ∀ route ∈ t, IsCut route.1) : root.Regular where
  order := hc.order
  fruitful K n hn hK := by
    obtain ⟨k, K, rfl⟩ := List.exists_cons_of_ne_nil hK
    exact hs.fruitful k K n hn
  wild K n child hn hchild := by
    rw [← at?_snoc hn] at hchild
    exact h.name_isSome (Or.inl rfl) hchild
  catchAll K n child hn hchild := by
    unfold catchAllChild? at hchild
    split at hchild
    · -- the node is its own child, so a catch-all led to it
      rename_i hl
      cases hchild
      obtain ⟨P, rfl⟩ := List.getLast?_eq_some_iff.mp (h.loops K n hn hl)
      exact h.at_catchAll hc ht hn
    · rw [← at?_snoc hn] at hchild
      exact h.at_catchAll hc ht hchild
  loops := h.loops

end

end Node

/-! ## 3. Runs of a router -/

namespace Router

/-- **The tree of every router has the shape.** Let calls be made on the empty router, refused ones among
    them, that mount no empty set of routes, and nothing under a template that may be absent or takes
    all that is left. Then every node of the tree but the root leads to a value, open components and
    catch-alls have names, and a catch-all is an end that is its own child, as no other node is. -/
theorem regular_afterAll {calls : List (Call V)} (hf : ∀ c ∈ calls, c.Filled)
    (hp : ∀ c ∈ calls, c.PlainMounts) : (empty.afterAll calls).root.Regular := by
  have hcanonical := canonical_afterAll calls Node.canonical_empty hp
  have hsound := sound_afterAll calls Node.sound_empty hf
  exact (shows_history hf hp).regular hcanonical hsound isCut_history

/-- Routes with a catch-all, behind a template that may be absent and under two mounts. The last call has
    another name for a component and is refused. -/
theorem regular_afterAll_files :
    let rest : ApiSpec String := ⟨["/{site:wiki}", "/v1"], [("/{+rest}", "rest"), ("/{lang}", "page")]⟩
    let calls : List (Call String) :=
      [.insertPattern "/v1{/lang}/files/{+path}" "files", .addSpec rest,
        .insertPattern "/{host:wiki}/x" "x"]
    (empty.afterAll calls).routes = [(["v1"], "files"), (["v1", "{lang}"], "page"),
        (["v1", "{lang}", "files", "{+path}"], "files"), (["v1", "{+rest}"], "rest"),
        (["wiki", "{lang}"], "page"), (["wiki", "{+rest}"], "rest")] ∧
      (empty.afterAll calls).root.Regular := by
  intro rest calls
  have hf : ∀ c ∈ calls, c.Filled := by simp [calls, rest, Call.Filled]
  have hp : ∀ c ∈ calls, c.PlainMounts := by
    have hm : rest.mountPoints
        = .ok [[.param ⟨"site", none, some "wiki"⟩], [.literal "v1"]] := by with_unfolding_all rfl
    simp [calls, Call.PlainMounts, hm, Segment.isPlain, Segment.isOptional, Segment.isCatchAll,
      Template.isOptional, Template.isCatchAll]
  exact ⟨by decide +kernel, regular_afterAll hf hp⟩

end Router

end RouteTree
