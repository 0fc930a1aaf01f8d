import RouteTree.Proofs.Router.Greedy

/-!
# The steps of a walk

`reach` says where a request ends among some keys. This file says by which steps it gets there, and
what these bind:

* `keyTurn` is one step among the keys, and `turn_of_keyTurn` the same step in a tree;
* `trail` are the steps of a walk, each with the keys it has come to and the text it took there;
* `Shows.walk_params` says that a walk binds the names along its trail, in their order, and
  `Shows.get?_of_trail` reads one of them.
-/

namespace RouteTree

variable {V : Type}

/-! ## 1. Steps among keys -/

/-- The key under which a request that has come to `K` goes on with a component, if there is one. -/
def keyTurn (passes : List Key → Bool) (K : List Key) (c : String) : Option Key :=
  if passes (K ++ [.exact c]) then some (.exact c)
  else if c = "" then none
  else if passes (K ++ [.wild]) then some .wild
  else if passes (K ++ [.catchAll]) then some .catchAll
  else none

/-- The steps of a request that has come to `K`. Each is the keys after it and the text that it took:
    one component, or all that are left. -/
def trail (passes : List Key → Bool) (K : List Key) : List String → List (List Key × String)
  | [] => []
  | c :: rest =>
    match keyTurn passes K c with
    | none => []
    | some k =>
      if k = .catchAll then [(K ++ [k], Node.restText (c :: rest))]
      else (K ++ [k], c) :: trail passes (K ++ [k]) rest

theorem passes_of_keyTurn {passes : List Key → Bool} {K : List Key} {c : String} {k : Key}
    (h : keyTurn passes K c = some k) : passes (K ++ [k]) = true := by
  unfold keyTurn at h
  split at h
  · cases h
    assumption
  · split at h
    · cases h
    · split at h
      · cases h
        assumption
      · split at h <;> cases h
        assumption

theorem reach_cons (passes : List Key → Bool) (K : List Key) (c : String) (rest : List String) :
    reach passes K (c :: rest) = match keyTurn passes K c with
      | none => none
      | some k => if k = .catchAll then some (K ++ [k]) else reach passes (K ++ [k]) rest := by
  rw [reach, keyTurn]
  by_cases hx : passes (K ++ [.exact c]) = true
  · simp [hx]
  · rw [if_neg hx, if_neg hx]
    by_cases hc : c = ""
    · rw [if_pos hc, if_pos hc]
    · rw [if_neg hc, if_neg hc]
      by_cases hw : passes (K ++ [.wild]) = true
      · simp [hw]
      · by_cases ha : passes (K ++ [.catchAll]) = true <;> simp [hw, ha]

/-- Each step goes further down than all before it. -/
theorem trail_descends (passes : List Key → Bool) : ∀ (path : List String) (K : List Key),
    (∀ step ∈ trail passes K path, K.length < step.1.length) ∧
      (trail passes K path).Pairwise fun first later => first.1.length < later.1.length
  | [], K => ⟨fun _ h => (nomatch h), .nil⟩
  | c :: rest, K => by
    have hlen : ∀ k, (K ++ [k] : List Key).length = K.length + 1 := fun k => by simp
    rw [trail]
    split
    · exact ⟨fun _ h => (nomatch h), .nil⟩
    · rename_i k _
      split
      · refine ⟨fun step h => ?_, List.pairwise_singleton _ _⟩
        rw [List.mem_singleton.mp h, hlen]
        omega
      · obtain ⟨hbelow, hpair⟩ := trail_descends passes rest (K ++ [k])
        refine ⟨fun step h => ?_, List.pairwise_cons.mpr ⟨hbelow, hpair⟩⟩
        rcases List.mem_cons.mp h with rfl | h
        · rw [hlen]
          omega
        · have := hbelow step h
          rw [hlen] at this
          omega

theorem keyTurn_congr {p q : List Key → Bool} (h : ∀ K k, p (K ++ [k]) = q (K ++ [k]))
    (K : List Key) (c : String) : keyTurn p K c = keyTurn q K c := by
  rw [keyTurn, keyTurn, h, h, h]

theorem trail_congr {p q : List Key → Bool} (h : ∀ K k, p (K ++ [k]) = q (K ++ [k])) :
    ∀ (path : List String) (K : List Key), trail p K path = trail q K path
  | [], _ => rfl
  | c :: rest, K => by
    have ih : ∀ L, trail p L rest = trail q L rest := trail_congr h rest
    rw [trail, trail, keyTurn_congr h]
    simp only [ih]

/-! ## 2. Steps in a tree -/

namespace Node

section
variable {root n : Node V} {K : List Key} {c : String}

theorem turn_of_keyTurn_none (hn : root.at? K = some n) (hl : n.loops = false)
    (h : keyTurn (fun L => (root.at? L).isSome) K c = none) : n.turn c = .nowhere := by
  rw [keyTurn] at h
  simp only [at?_snoc hn] at h
  rw [turn_of_not_loops hl]
  cases hx : n.child? (.exact c) with
  | some child => simp [hx] at h
  | none =>
    by_cases hc : c = ""
    · exact if_pos hc
    · cases hw : n.child? .wild with
      | some child => simp [hx, hc, hw] at h
      | none =>
        cases ha : n.child? .catchAll with
        | some child => simp [hx, hc, hw, ha] at h
        | none => exact if_neg hc

/-- **A step in the tree is a step among its keys**, to the node at the end of them. -/
theorem turn_of_keyTurn {k : Key} (hn : root.at? K = some n) (hl : n.loops = false)
    (h : keyTurn (fun L => (root.at? L).isSome) K c = some k) :
    ∃ child, root.at? (K ++ [k]) = some child ∧
      n.turn c = if k = .catchAll then .rest child else .child child := by
  obtain ⟨child, hchild⟩ := Option.isSome_iff_exists.mp (passes_of_keyTurn h)
  refine ⟨child, hchild, ?_⟩
  rw [at?_snoc hn] at hchild
  rw [keyTurn] at h
  simp only [at?_snoc hn] at h
  rw [turn_of_not_loops hl]
  cases hx : n.child? (.exact c) with
  | some found =>
    obtain rfl : Key.exact c = k := by simpa [hx] using h
    rw [hchild] at hx
    cases hx
    rfl
  | none =>
    rw [hx, Option.isSome_none, if_neg Bool.false_ne_true] at h
    by_cases hc : c = ""
    · rw [if_pos hc] at h
      cases h
    · dsimp only
      rw [if_neg hc] at h ⊢
      cases hw : n.child? .wild with
      | some found =>
        obtain rfl : Key.wild = k := by simpa [hw] using h
        rw [hchild] at hw
        cases hw
        rfl
      | none =>
        obtain ⟨-, rfl⟩ : (n.child? .catchAll).isSome = true ∧ Key.catchAll = k := by
          simpa [hw] using h
        rw [hchild]
        rfl

end

/-- What a step binds: the name of the node it comes to. -/
def bindingAt (root : Node V) (step : List Key × String) : Option (String × ParamValue) :=
  ((root.at? step.1).bind Node.name).map fun name => (name, .single step.2)

theorem bindTo_merge {root child : Node V} {K : List Key} (h : root.at? K = some child)
    (text : String) (params : Params) (more : List (List Key × String)) :
    (child.bindTo text params).merge (more.filterMap root.bindingAt)
      = params.merge (((K, text) :: more).filterMap root.bindingAt) := by
  have hb : root.bindingAt (K, text) = child.name.map fun name => (name, .single text) := by
    rw [bindingAt, h]
    rfl
  rw [List.filterMap_cons, hb, bindTo]
  cases child.name <;> rfl

/-- **A walk binds the names along its trail.** The invariant is the node the walk has come to: the one
    at the end of `K`, where `K` does not end in a catch-all. -/
theorem walk_params {root : Node V} (hroot : LoopsAtEnds root) :
    ∀ (path : List String) {K : List Key} {n : Node V} (params : Params), root.at? K = some n →
      K.getLast? ≠ some .catchAll → (n.walk params path).params
        = params.merge ((trail (fun L => (root.at? L).isSome) K path).filterMap root.bindingAt)
  | [], K, n, params, _, _ => rfl
  | c :: rest, K, n, params, hn, hK => by
    have hl : n.loops = false := Bool.eq_false_iff.mpr fun hl => hK (hroot K n hn hl)
    rw [walk, trail]
    cases hk : keyTurn (fun L => (root.at? L).isSome) K c with
    | none =>
      rw [turn_of_keyTurn_none hn hl hk]
      rfl
    | some k =>
      obtain ⟨child, hchild, ht⟩ := turn_of_keyTurn hn hl hk
      rw [ht]
      dsimp only
      by_cases hne : k = .catchAll
      · rw [if_pos hne, if_pos hne, ← bindTo_merge hchild]
        rfl
      · have hlast : (K ++ [k]).getLast? ≠ some .catchAll := by
          rw [List.getLast?_concat]
          exact fun h => hne (Option.some.inj h)
        rw [if_neg hne, if_neg hne, ← bindTo_merge hchild]
        exact walk_params hroot rest _ hchild hlast

/-! ## 3. Steps in a table -/

theorem Shows.walk_params {root : Node V} {t : Table V} (h : root.Shows t) (params : Params)
    (path : List String) : (root.walk params path).params
      = params.merge ((trail t.passes [] path).filterMap root.bindingAt) := by
  have hw := Node.walk_params h.loops path params (K := []) (n := root) rfl (by simp)
  rw [hw, trail_congr (p := fun L => (root.at? L).isSome) h.isSome_at?_snoc]

theorem Shows.bindingAt {root : Node V} {t : Table V} (h : root.Shows t) {L : List Key}
    {name : String} (hname : t.names L name) (text : String) :
    root.bindingAt (L, text) = some (name, .single text) := by
  rw [Node.bindingAt, (h.name L name).mpr hname]
  rfl

/-- **What a step binds stays bound** if no other step of the walk has the same name. -/
theorem Shows.get?_of_trail {root : Node V} {t : Table V} (h : root.Shows t) {path : List String}
    {L : List Key} {text name : String} (hstep : (L, text) ∈ trail t.passes [] path)
    (hname : t.names L name)
    (honly : ∀ step ∈ trail t.passes [] path, t.names step.1 name → step.1 = L) :
    (root.walk [] path).params.get? name = some (.single text) := by
  obtain ⟨front, back, hsplit⟩ := List.append_of_mem hstep
  have hlater : name ∉ (back.filterMap root.bindingAt).map Prod.fst := by
    intro hmem
    obtain ⟨⟨other, value⟩, hb, rfl⟩ := List.mem_map.mp hmem
    obtain ⟨step, hs, hbind⟩ := List.mem_filterMap.mp hb
    obtain ⟨found, hfound, he⟩ := Option.map_eq_some_iff.mp hbind
    obtain ⟨rfl, -⟩ := Prod.mk.inj he
    have hin : step ∈ trail t.passes [] path := by
      rw [hsplit]
      exact List.mem_append_right _ (List.mem_cons_of_mem _ hs)
    have heq := honly step hin ((h.name _ _).mp hfound)
    -- a later step is further down, so it is not at the same keys
    have hpair := (trail_descends t.passes path []).2
    rw [hsplit] at hpair
    have hlt := (List.pairwise_cons.mp (List.pairwise_append.mp hpair).2.1).1 step hs
    rw [heq] at hlt
    exact Nat.lt_irrefl _ hlt
  rw [h.walk_params, hsplit, List.filterMap_append, List.filterMap_cons, h.bindingAt hname text,
    Params.merge_append, Params.merge_cons, Params.get?_merge_of_not_mem _ hlater,
    Params.get?_set_self]

end Node

end RouteTree
