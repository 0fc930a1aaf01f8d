import RouteTree.Proofs.Node.Canonical

/-!
# The places of a listing

The routes of a tree are listed by a recursion that hands down no keys. This file gives each route of the
listing its place, the keys that lead to it:

* `labels?` reads the path that is shown off the keys;
* `Lists` says what the places of a listing are: they stand in the order of their keys, and they are
  those where a value is and to which a path can be shown;
* `exists_listsBelow` puts the listings below one node together, edge by edge, and `exists_lists` is the
  recursion on the tree.
-/

namespace RouteTree.Node

variable {V : Type}

/-! ## 1. Places -/

/-- A route of a listing with the keys that lead to it. -/
abbrev Place (V : Type) := List Key × List String × V

/-- The path that a listing shows for some keys. There is none if a tag is among them. -/
def labels? (n : Node V) : List Key → Option (List String)
  | [] => some []
  | k :: K => (n.child? k).bind fun child =>
      (k.label? child.name).bind fun label => (child.labels? K).map (label :: ·)

/-- The place is in the tree: there is a value at the end of its keys, and its path is shown for
    them. -/
def Has (n : Node V) (p : Place V) : Prop :=
  n.labels? p.1 = some p.2.1 ∧ (n.at? p.1).bind Node.value = some p.2.2

/-- The places of the listing of a tree. -/
structure Lists (n : Node V) (places : List (Place V)) : Prop where
  routes : places.map Prod.snd = n.routes
  order : places.Pairwise fun p q => p.1 < q.1
  mem : ∀ p, p ∈ places ↔ n.Has p

/-- The place is below one of the edges. -/
def HasBelow (edges : List (Key × Node V)) (p : Place V) : Prop :=
  ∃ k child label K path, (k, child) ∈ edges ∧ k.label? child.name = some label ∧
    p.1 = k :: K ∧ p.2.1 = label :: path ∧ child.Has (K, path, p.2.2)

/-- The places of the listing below some edges. -/
structure ListsBelow (edges : List (Key × Node V)) (places : List (Place V)) : Prop where
  routes : places.map Prod.snd = edgesRoutes edges
  order : places.Pairwise fun p q => p.1 < q.1
  mem : ∀ p, p ∈ places ↔ HasBelow edges p

/-! ## 2. Below one node -/

/-- A place of a child, seen from its parent. -/
def under (k : Key) (label : String) (p : Place V) : Place V := (k :: p.1, label :: p.2.1, p.2.2)

theorem hasBelow_singleton {k : Key} {child : Node V} {p : Place V} : HasBelow [(k, child)] p ↔
    ∃ label q, k.label? child.name = some label ∧ child.Has q ∧ under k label q = p := by
  constructor
  · rintro ⟨j, c, label, K, path, hmem, hl, hK, hpath, hp⟩
    cases List.mem_singleton.mp hmem
    exact ⟨label, (K, path, p.2.2), hl, hp, Prod.ext hK.symm (Prod.ext hpath.symm rfl)⟩
  · rintro ⟨label, q, hl, hq, rfl⟩
    exact ⟨k, child, label, q.1, q.2.1, List.mem_singleton_self _, hl, rfl, rfl, hq⟩

/-- The listing below one edge is the listing of the child, each place behind the key of the edge. An
    edge that cannot be shown has none. -/
theorem exists_listsBelow_edge (k : Key) {child : Node V} {places : List (Place V)}
    (h : child.Lists places) : ∃ below, ListsBelow [(k, child)] below := by
  cases hl : k.label? child.name with
  | none =>
    refine ⟨[], ?_, .nil, fun p => iff_of_false List.not_mem_nil fun hp => ?_⟩
    · rw [edgesRoutes, edgeRoutes, hl]
      rfl
    · obtain ⟨label, q, hlabel, -⟩ := hasBelow_singleton.mp hp
      rw [hl] at hlabel
      cases hlabel
  | some label =>
    refine ⟨places.map (under k label), ?_, ?_, fun p => ?_⟩
    · rw [edgesRoutes, edgeRoutes, hl, edgesRoutes, List.append_nil]
      dsimp only
      rw [← h.routes, List.map_map, List.map_map]
      rfl
    · exact List.pairwise_map.mpr (h.order.imp fun hlt => List.Lex.cons hlt)
    · rw [List.mem_map, hasBelow_singleton]
      constructor
      · rintro ⟨q, hq, rfl⟩
        exact ⟨label, q, hl, (h.mem q).mp hq, rfl⟩
      · rintro ⟨other, q, hother, hq, rfl⟩
        obtain rfl := Option.some.inj (hl.symm.trans hother)
        exact ⟨q, (h.mem q).mpr hq, rfl⟩

theorem hasBelow_cons {e : Key × Node V} {rest : List (Key × Node V)} {p : Place V} :
    HasBelow (e :: rest) p ↔ HasBelow [e] p ∨ HasBelow rest p := by
  constructor
  · rintro ⟨k, child, label, K, path, hmem, h⟩
    rcases List.mem_cons.mp hmem with rfl | hmem
    · exact Or.inl ⟨k, child, label, K, path, List.mem_singleton_self _, h⟩
    · exact Or.inr ⟨k, child, label, K, path, hmem, h⟩
  · rintro (⟨k, child, label, K, path, hmem, h⟩ | ⟨k, child, label, K, path, hmem, h⟩)
    · exact ⟨k, child, label, K, path, List.mem_singleton.mp hmem ▸ List.mem_cons_self, h⟩
    · exact ⟨k, child, label, K, path, List.mem_cons_of_mem e hmem, h⟩

/-- The places below some edges start with one of their keys. -/
theorem ListsBelow.key {edges : List (Key × Node V)} {places : List (Place V)}
    (h : ListsBelow edges places) {p : Place V} (hp : p ∈ places) :
    ∃ e ∈ edges, ∃ K, p.1 = e.1 :: K := by
  obtain ⟨k, child, label, K, path, hmem, -, hK, -⟩ := (h.mem p).mp hp
  exact ⟨(k, child), hmem, K, hK⟩

/-- **The listing below some edges**, given one of each child. What is below a smaller key comes
    first. -/
theorem exists_listsBelow : ∀ {edges : List (Key × Node V)}, Assoc.Sorted edges →
    (∀ e ∈ edges, ∃ places, e.2.Lists places) → ∃ places, ListsBelow edges places
  | [], _, _ => by
    refine ⟨[], rfl, .nil, fun p => iff_of_false List.not_mem_nil ?_⟩
    rintro ⟨k, child, label, K, path, hmem, -⟩
    cases hmem
  | e :: rest, hs, h => by
    obtain ⟨hfirst, hrest⟩ := List.pairwise_cons.mp hs
    obtain ⟨own, hown⟩ := h e List.mem_cons_self
    obtain ⟨front, hfront⟩ := exists_listsBelow_edge e.1 hown
    obtain ⟨back, hback⟩ := exists_listsBelow hrest fun f hf => h f (List.mem_cons_of_mem e hf)
    refine ⟨front ++ back, ?_, ?_, fun p => ?_⟩
    · rw [List.map_append, hfront.routes, hback.routes, edgesRoutes, edgesRoutes, List.append_nil,
        edgesRoutes]
    · refine List.pairwise_append.mpr ⟨hfront.order, hback.order, fun p hp q hq => ?_⟩
      obtain ⟨f, hf, K, hK⟩ := hfront.key hp
      obtain ⟨g, hg, L, hL⟩ := hback.key hq
      obtain rfl := List.mem_singleton.mp hf
      rw [hK, hL]
      exact List.Lex.rel (hfirst g hg)
    · rw [List.mem_append, hfront.mem, hback.mem]
      exact hasBelow_cons.symm

/-! ## 3. The whole tree -/

theorem routes_eq (n : Node V) : n.routes = ownRoute n.value ++ edgesRoutes n.edges := by
  cases n
  rw [routes]

theorem has_nil {n : Node V} {p : Place V} (hp : p.1 = []) :
    n.Has p ↔ p.2.1 = [] ∧ n.value = some p.2.2 := by
  rw [Has, hp]
  exact and_congr_left' (Option.some_inj.trans eq_comm)

theorem has_cons {n : Node V} (hs : Assoc.Sorted n.edges) {k : Key} {K : List Key} {p : Place V}
    (hp : p.1 = k :: K) : n.Has p ↔ HasBelow n.edges p := by
  rw [Has, hp, at?_cons, labels?]
  constructor
  · rintro ⟨hlabels, hv⟩
    obtain ⟨child, hc, hlabels⟩ := Option.bind_eq_some_iff.mp hlabels
    obtain ⟨label, hl, hlabels⟩ := Option.bind_eq_some_iff.mp hlabels
    obtain ⟨path, hpath, hcons⟩ := Option.map_eq_some_iff.mp hlabels
    rw [hc] at hv
    exact ⟨k, child, label, K, path, Assoc.mem_of_lookup hc, hl, hp, hcons.symm, hpath, hv⟩
  · rintro ⟨j, child, label, L, path, hmem, hl, hL, hcons, hpath, hv⟩
    obtain ⟨rfl, rfl⟩ := List.cons.inj (hp.symm.trans hL)
    have hc : n.child? k = some child := Assoc.lookup_of_mem hs hmem
    rw [hc]
    refine ⟨?_, hv⟩
    rw [Option.bind_some, hl, Option.bind_some, hpath, hcons]
    rfl

/-- **Every tree whose children stand in order has a listing by places.** The recursion is on the
    tree. -/
theorem exists_lists (n : Node V) (hn : n.Canonical) : ∃ places, n.Lists places := by
  have hs := hn.order [] n rfl
  have below : ∀ e ∈ n.edges, ∃ places, e.2.Lists places := fun e he => by
    have hc : n.child? e.1 = some e.2 := Assoc.lookup_of_mem hs he
    have hlt := sizeOf_child hc
    exact exists_lists e.2 (hn.child hc)
  obtain ⟨places, hplaces⟩ := exists_listsBelow hs below
  have hown : ∀ {p : Place V}, p ∈ (ownRoute n.value).map (Prod.mk []) ↔
      p.1 = [] ∧ p.2.1 = [] ∧ n.value = some p.2.2 := by
    intro p
    cases n.value with
    | none => simp [ownRoute]
    | some v => simp [ownRoute, Prod.ext_iff, eq_comm]
  refine ⟨(ownRoute n.value).map (Prod.mk []) ++ places, ?_, ?_, fun p => ?_⟩
  · rw [List.map_append, List.map_map, hplaces.routes, routes_eq]
    exact congrArg (· ++ _) (List.map_id _)
  · refine List.pairwise_append.mpr ⟨?_, hplaces.order, fun p hp q hq => ?_⟩
    · cases n.value with
      | none => exact .nil
      | some v => exact List.pairwise_singleton _ _
    · obtain ⟨e, -, K, hK⟩ := hplaces.key hq
      rw [(hown.mp hp).1, hK]
      exact List.Lex.nil
  · rw [List.mem_append, hown, hplaces.mem]
    cases hp : p.1 with
    | nil =>
      rw [has_nil hp]
      refine ⟨fun h => h.elim And.right fun hb => ?_, fun h => Or.inl ⟨rfl, h⟩⟩
      obtain ⟨k, child, label, K, path, -, -, hK, -⟩ := hb
      rw [hp] at hK
      cases hK
    | cons k K =>
      rw [has_cons hs hp]
      exact ⟨fun h => h.elim (fun h => nomatch h.1) id, Or.inr⟩
termination_by sizeOf n

/-- Every node to which no tag leads has a path that is shown. -/
theorem exists_labels : ∀ {K : List Key} {n m : Node V}, n.at? K = some m →
    (∀ k ∈ K, ∀ tag, k ≠ .tag tag) → ∃ path, n.labels? K = some path
  | [], n, m, _, _ => ⟨[], rfl⟩
  | k :: K, n, m, hm, hk => by
    rw [at?_cons] at hm
    obtain ⟨child, hc, hm⟩ := Option.bind_eq_some_iff.mp hm
    obtain ⟨path, hpath⟩ := exists_labels hm fun j hj => hk j (List.mem_cons_of_mem k hj)
    have hlabel : ∃ label, k.label? child.name = some label := by
      cases k with
      | exact text => exact ⟨text, rfl⟩
      | wild => exact ⟨_, rfl⟩
      | catchAll => exact ⟨_, rfl⟩
      | tag name => exact absurd rfl (hk _ List.mem_cons_self name)
    obtain ⟨label, hl⟩ := hlabel
    refine ⟨label :: path, ?_⟩
    rw [labels?, hc, Option.bind_some, hl, Option.bind_some, hpath]
    rfl

end RouteTree.Node
