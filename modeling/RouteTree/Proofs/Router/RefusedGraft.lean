import RouteTree.Proofs.Node.Grafting
import RouteTree.Proofs.Router.Conflict
import RouteTree.Proofs.Router.Sharing
import RouteTree.Proofs.Router.Siblings

/-!
# What a refused graft leaves behind

A graft walks down to the end of its path before it asks whether anything is there. On the way the nodes
that have no name take those of the path, and they keep them when the graft is refused.

* `face_of_refused` says what that makes of each node: its children and its value stay, and the path may
  have named it;
* `eq_of_namedAlong` says that nothing changes where the templates of the path had named their nodes;
* `refused_graft_unchanged_iff` puts the two together. It is about trees whose children are maps, as
  every tree of a router is, by `proper_afterAll`.
-/

namespace RouteTree

open Segment (keysOf bindsAt)

variable {V : Type}

namespace Node

/-! ## 1. Node by node -/

theorem renamed_or_none (n : Node V) : n.renamed (n.name.or none) = n :=
  ext_fields rfl Option.or_none rfl rfl

/-- **What a refused graft makes of each node.** The induction is on the path; where it goes down, the
    child in its way has taken the name of the segment. -/
theorem face_of_refused {tree : Node V} {path : List Segment} : ∀ {n m : Node V}, n.Proper →
    n.graft tree path = .ok (m, false) → ∀ K, (m.at? K).map face
      = (n.at? K).map fun x => face (x.renamed (x.name.or (bindsAt path K))) := by
  induction path with
  | nil =>
    intro n m _ h K
    rw [eq_of_refused_nil h, Segment.bindsAt_of_nil]
    simp only [renamed_or_none]
  | cons s rest ih =>
    intro n m hn h K
    obtain ⟨child, below, hc, hg, rfl⟩ := refused_cases h
    cases K with
    | nil =>
      rw [at?_nil, at?_nil, Option.map_some, Option.map_some, Segment.bindsAt_nil, renamed_or_none]
      exact congrArg (fun l => some (n.value, n.name, l)) (hn.loops_setChild hc below)
    | cons j K =>
      rw [at?_setChild]
      by_cases hj : j = s.key
      · rw [if_pos hj, hj, ih ((hn.child hc).adopt s) hg K, at?_cons n, hc, Option.bind_some,
          adopt_eq_renamed]
        cases K with
        | nil =>
          rw [at?_nil, at?_nil, Segment.bindsAt_nil, Segment.bindsAt_single, if_pos rfl]
          simp [renamed, face, nameOf]
        | cons k K => rw [at?_renamed, Segment.bindsAt_cons, if_pos rfl]
      · rw [if_neg hj, Segment.bindsAt_of_ne hj]
        simp only [renamed_or_none]

/-- Where the templates of the path have named their nodes, a refused graft does nothing. -/
theorem eq_of_namedAlong {tree : Node V} {path : List Segment} : ∀ {n m : Node V}, n.Proper →
    n.graft tree path = .ok (m, false) → n.NamedAlong path path.length → m = n := by
  induction path with
  | nil =>
    intro n m _ h _
    exact eq_of_refused_nil h
  | cons s rest ih =>
    intro n m hn h hnamed
    obtain ⟨child, below, hc, hg, rfl⟩ := refused_cases h
    rw [hnamed.first hc] at hg
    rw [ih (hn.child hc) hg (hnamed.below hc), hn.setChild_self hc]

/-- What a graft has gone along is named by the path, so a tree that it did not change was. -/
theorem namedAlong_of_graft {n tree : Node V} {path : List Segment} {shared : Bool}
    (h : n.graft tree path = .ok (n, shared)) : n.NamedAlong path path.length := by
  intro i _ t ht
  exact name_of_graft h ((bindsAt_iff_take path _ t.name).mpr ⟨i, t, ht, rfl, rfl⟩)

/-! ## 2. Refused grafts -/

/-- **A refused graft changes nothing exactly if the path has no name left to give.** Let the children of
    each node be a map, and let a graft be refused. Then something is at the end of its path, with a
    value or with something below it. Every node keeps its children and its value; one without a name
    takes the one that the path has for it, if any. So the tree stays as it was if and only if every
    template of the path has named the node that it leads to. -/
theorem refused_graft_unchanged_iff {n tree m : Node V} {path : List Segment} (hn : n.Proper)
    (h : n.graft tree path = .ok (m, false)) :
    (∃ last, n.at? (keysOf path) = some last ∧ last.isUsed = true) ∧
    (∀ K, (m.at? K).map face
      = (n.at? K).map fun x => face (x.renamed (x.name.or (bindsAt path K)))) ∧
    (m = n ↔ n.NamedAlong path path.length) := by
  refine ⟨?_, face_of_refused hn h, ⟨?_, eq_of_namedAlong hn h⟩⟩
  · have hfree := isFree_of_graft h
    unfold isFree at hfree
    cases hl : n.at? (keysOf path) with
    | none =>
      rw [hl] at hfree
      cases hfree
    | some last =>
      rw [hl] at hfree
      exact ⟨last, rfl, by simpa using hfree⟩
  · rintro rfl
    exact namedAlong_of_graft h

/-- A path whose only template has named its node already. -/
theorem refused_graft_unchanged_site :
    let n : Node String := build "page" [.param ⟨"site", none, some "v1"⟩, .literal "page"]
    let path : List Segment := [.param ⟨"site", none, some "v1"⟩, .literal "page"]
    n.Proper ∧ n.graft empty path = .ok (n, false) := by
  intro n path
  have hn : n.Proper := proper_build "page" _
  obtain ⟨m, hm⟩ : ∃ m, n.graft empty path = .ok (m, false) := ⟨_, rfl⟩
  have hnamed : n.NamedAlong path path.length := by
    intro i hi t ht
    match i, hi with
    | 0, _ =>
      cases ht
      rfl
    | 1, _ => cases ht
  refine ⟨hn, ?_⟩
  rw [hm, (refused_graft_unchanged_iff hn hm).2.2.mpr hnamed]

end Node

/-! ## 3. Trees of routers -/

namespace Router

theorem proper_after {r : Router V} (hr : r.root.Proper) (c : Call V) : (r.after c).root.Proper := by
  rcases after_cases r c with ⟨hsame, -⟩ | ⟨segments, value, hx, -⟩ | ⟨spec, -, ⟨m⟩, -⟩
  · rw [hsame]
    exact hr
  · exact Node.Proper.extend hx hr
  · exact hr.mountAll m.built m.mounted

/-- **The children of each node of a router's tree are a map**, whatever was inserted and mounted. -/
theorem proper_afterAll (calls : List (Call V)) : (empty.afterAll calls).root.Proper :=
  afterAll_keeps (fun r => r.root.Proper) (fun _ => True) (fun _ c hr _ => proper_after hr c) calls
    (Node.proper_leaf rfl) fun _ _ => trivial

/-- A graft that is refused names the node of a literal. Nothing is mounted with it here, and yet a
    lookup tells. -/
theorem refused_graft_shows :
    let r : Router String := empty.after (.insertPattern "/v1/page" "page")
    let site : List Segment := [.param ⟨"site", none, some "v1"⟩]
    (∃ m, r.root.graft Node.empty site = .ok (m, false) ∧ m ≠ r.root) ∧
      boundBy r ["v1", "page"] = some [] ∧
      boundBy (r.after (.addSpec ⟨["/{site:v1}"], []⟩)) ["v1", "page"]
        = some [("site", .single "v1")] := by
  intro r site
  refine ⟨?_, by with_unfolding_all rfl, by with_unfolding_all rfl⟩
  have hr : r.root = Node.build "page" [.literal "v1", .literal "page"] := by with_unfolding_all rfl
  rw [hr]
  refine ⟨_, rfl, fun he => ?_⟩
  have hname := congrArg (fun m : Node String => (m.at? [.exact "v1"]).bind Node.name) he
  cases hname

end Router

end RouteTree
