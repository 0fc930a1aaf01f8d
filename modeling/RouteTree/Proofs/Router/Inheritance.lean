import Mathlib.Data.List.Infix
import RouteTree.Proofs.Router.Expansion
import RouteTree.Proofs.Router.Trail

/-!
# Metadata on the way down

A match hands down the metadata of all nodes on the way of its request. This file says which these are
among the keys of the accepted routes:

* `trail_keys` and `trail_of_dropLast`: the keys along the trail of a request are the prefixes of the
  keys that it rests at, also where its last component leads nowhere;
* `walk_values`: a walk down a tree collects the values at the keys along its trail, each once;
* `match_inherits` puts them together for the routers that calls make.
-/

namespace RouteTree

variable {V : Type}

/-! ## 1. The keys along a trail -/

/-- A request rests at some keys: it ends there, or it ends nowhere and comes there without its last
    component. -/
def Table.RestsAt (t : Table V) (path : List String) (keys : List Key) : Prop :=
  reach t.passes [] path = some keys ∨
    reach t.passes [] path = none ∧ reach t.passes [] path.dropLast = some keys

/-- The values at all prefixes of some keys, the one at the root first. -/
def Table.valuesAlong (t : Table V) (keys : List Key) : List V := keys.inits.filterMap t.value

/-- **The trail of a request shows the prefixes of the keys it ends at**, each once. -/
theorem trail_keys {passes : List Key → Bool} : ∀ (path : List String) {K L : List Key},
    reach passes K path = some L →
    ∃ M, L = K ++ M ∧ K :: (trail passes K path).map Prod.fst = M.inits.map fun I => K ++ I
  | [], K, L, h => by
    cases h
    exact ⟨[], (List.append_nil _).symm, by simp [trail]⟩
  | c :: rest, K, L, h => by
    rw [reach_cons] at h
    rw [trail]
    cases hk : keyTurn passes K c with
    | none =>
      rw [hk] at h
      cases h
    | some k =>
      rw [hk] at h
      dsimp only at h ⊢
      split at h
      · rename_i hc
        cases h
        exact ⟨[k], rfl, by simp [hc]⟩
      · rename_i hc
        obtain ⟨M, rfl, hM⟩ := trail_keys rest h
        refine ⟨k :: M, by simp, ?_⟩
        rw [if_neg hc, List.map_cons, hM, List.inits_cons, List.map_cons, List.map_map,
          List.append_nil]
        exact congrArg _ (List.map_congr_left fun I _ => by simp)

/-- A last component that leads nowhere leaves no trace in the trail. -/
theorem trail_of_dropLast {passes : List Key → Bool} : ∀ (path : List String) {K : List Key},
    reach passes K path = none → (reach passes K path.dropLast).isSome = true →
    trail passes K path = trail passes K path.dropLast
  | [], _, _, _ => rfl
  | [c], K, h, _ => by
    rw [reach_cons] at h
    rw [List.dropLast_singleton, trail, trail]
    cases hk : keyTurn passes K c with
    | none => rfl
    | some k =>
      rw [hk] at h
      dsimp only at h
      split at h <;> cases h
  | c :: d :: rest, K, h, hd => by
    rw [List.dropLast_cons_of_ne_nil (List.cons_ne_nil d rest)] at hd ⊢
    rw [reach_cons] at h hd
    rw [trail, trail]
    cases hk : keyTurn passes K c with
    | none => rfl
    | some k =>
      rw [hk] at h hd
      dsimp only at h hd ⊢
      split at h
      · cases h
      · rename_i hc
        rw [if_neg hc] at hd ⊢
        rw [if_neg hc, trail_of_dropLast (d :: rest) h hd]

theorem Table.RestsAt.inits {t : Table V} {path : List String} {keys : List Key}
    (h : t.RestsAt path keys) : [] :: (trail t.passes [] path).map Prod.fst = keys.inits := by
  obtain ⟨M, rfl, hM⟩ : ∃ M, keys = [] ++ M ∧
      [] :: (trail t.passes [] path).map Prod.fst = M.inits.map fun I => [] ++ I := by
    rcases h with h | ⟨hnone, h⟩
    · exact trail_keys path h
    · rw [trail_of_dropLast path hnone (h ▸ rfl)]
      exact trail_keys _ h
  simpa using hM

/-! ## 2. The values on a walk -/

namespace Node

/-- **A walk collects the values along its trail.** The invariant is the node the walk has come to: the
    one at the end of `K`, where `K` does not end in a catch-all. The loop at the end of a catch-all is
    no step of the walk, so its node is collected once. -/
theorem walk_values {root : Node V} (hroot : LoopsAtEnds root) :
    ∀ (path : List String) {K : List Key} {n : Node V} (params : Params), root.at? K = some n →
      K.getLast? ≠ some .catchAll → (n.walk params path).values
        = (K :: (trail (fun L => (root.at? L).isSome) K path).map Prod.fst).filterMap
            fun L => (root.at? L).bind Node.value
  | [], K, n, params, hn, _ => by
    simp [Walk.values, Walk.nodes, walk, trail, hn, List.filterMap_cons]
  | c :: rest, K, n, params, hn, hK => by
    have hl : n.loops = false := Bool.eq_false_iff.mpr fun hl => hK (hroot K n hn hl)
    have hhead : (root.at? K).bind Node.value = n.value := by
      rw [hn]
      rfl
    rw [walk, trail]
    cases hk : keyTurn (fun L => (root.at? L).isSome) K c with
    | none =>
      rw [turn_of_keyTurn_none hn hl hk]
      simp [Walk.values, Walk.nodes, List.filterMap_cons, hhead]
    | some k =>
      obtain ⟨child, hchild, ht⟩ := turn_of_keyTurn hn hl hk
      rw [ht]
      dsimp only
      by_cases hne : k = .catchAll
      · rw [if_pos hne, if_pos hne]
        simp [Walk.values, Walk.nodes, List.filterMap_cons, hhead, hchild]
      · have hlast : (K ++ [k]).getLast? ≠ some .catchAll := by
          rw [List.getLast?_concat]
          exact fun h => hne (Option.some.inj h)
        have ih := walk_values hroot rest (child.bindTo c params) hchild hlast
        rw [if_neg hne, if_neg hne, List.map_cons, List.filterMap_cons, hhead, ← ih]
        rfl

theorem Shows.walk_values {root : Node V} {t : Table V} (h : root.Shows t) (params : Params)
    {path : List String} {keys : List Key} (hr : t.RestsAt path keys) :
    (root.walk params path).values = t.valuesAlong keys := by
  have hv : (fun L => (root.at? L).bind Node.value) = t.value := funext h.value
  rw [Node.walk_values h.loops path params (K := []) rfl (by simp),
    trail_congr (p := fun L => (root.at? L).isSome) h.isSome_at?_snoc, hr.inits, hv, Table.valuesAlong]

end Node

/-! ## 3. Matches -/

namespace Router

variable [RouteValue V]

theorem restsAt_of_lookup {r : Router V} {t : Table V} (h : r.root.Shows t) {path : List String}
    {m : RouteMatch V} (hm : (r.lookup path).value = some m) : ∃ keys, t.RestsAt path keys := by
  have hu : (r.root.walk [] path).unread = [] := by
    by_contra hne
    unfold lookup at hm
    rw [if_pos hne] at hm
    cases hm
  rw [Node.walk_unread, h.walk_reached_isSome] at hu
  cases hr : reach t.passes [] path with
  | some keys => exact ⟨keys, Or.inl hr⟩
  | none =>
    obtain ⟨keys, hkeys⟩ := Option.isSome_iff_exists.mp hu
    exact ⟨keys, Or.inr ⟨hr, hkeys⟩⟩

/-- **A match inherits all metadata on its way, each once.** Let calls be made on the empty router that
    mount no empty set of routes and mount nothing under a template that may be absent or takes all that
    is left. If a request is found, with a value or as a mere listing, it rests at some keys, and its
    permissions and filters are those of the values at all prefixes of these keys, the root first. The
    value at some keys is the one that the table of accepted routes has there. -/
theorem match_inherits {calls : List (Call V)} (hf : ∀ c ∈ calls, c.Filled)
    (hp : ∀ c ∈ calls, c.PlainMounts) {path : List String} {m : RouteMatch V}
    (hm : ((empty.afterAll calls).lookup path).value = some m) :
    let t := empty.history calls
    (∃ keys, t.RestsAt path keys ∧
      m.permissions = (t.valuesAlong keys).flatMap RouteValue.security ∧
      m.filters = (t.valuesAlong keys).flatMap RouteValue.filters) ∧
    ∀ K, ((empty.afterAll calls).root.at? K).bind Node.value = t.value K := by
  intro t
  have hs := shows_history hf hp
  obtain ⟨keys, hr⟩ := restsAt_of_lookup hs hm
  obtain rfl := result_of_lookup hm
  have hvalues := hs.walk_values [] hr
  refine ⟨⟨keys, hr, ?_, ?_⟩, hs.value⟩
  · show ((empty.afterAll calls).root.walk [] path).values.flatMap RouteValue.security = _
    rw [hvalues]
  · show ((empty.afterAll calls).root.walk [] path).values.flatMap RouteValue.filters = _
    rw [hvalues]

/-- A catch-all below a root with permissions of its own: both are asked for, each once. -/
theorem match_inherits_files :
    let asks (who : String) : Json := Json.mkObj [("security", .arr [.str who])]
    let calls : List (Call Json) :=
      [.insert [] (asks "guest"), .insertPattern "/files/{+path}" (asks "member")]
    let t := empty.history calls
    let path := ["files", "a", "b"]
    ∃ m, ((empty.afterAll calls).lookup path).value = some m ∧
      (∃ keys, t.RestsAt path keys ∧
        m.permissions = (t.valuesAlong keys).flatMap RouteValue.security) ∧
      t.RestsAt path [.exact "files", .catchAll] ∧
      m.permissions = [.str "guest", .str "member"] := by
  intro asks calls t path
  have hf : ∀ c ∈ calls, c.Filled := by simp [calls, Call.Filled]
  have hp : ∀ c ∈ calls, c.PlainMounts := by simp [calls, Call.PlainMounts]
  have hm : ((empty.afterAll calls).lookup path).value
      = some (((empty.afterAll calls).root.walk [] path).result path) := by
    with_unfolding_all rfl
  obtain ⟨keys, hr, hperm, -⟩ := (match_inherits hf hp hm).1
  refine ⟨_, hm, ⟨keys, hr, hperm⟩, Or.inl ?_, ?_⟩
  · with_unfolding_all rfl
  · with_unfolding_all rfl

end Router

end RouteTree
