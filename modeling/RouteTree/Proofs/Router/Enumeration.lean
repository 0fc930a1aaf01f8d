import RouteTree.Proofs.Node.Holding
import RouteTree.Proofs.Node.Places
import RouteTree.Proofs.Pattern
import RouteTree.Proofs.Router.History

/-!
# The routes of a router, one by one

A router lists its routes. This file says what is on the list, in terms of the accepted routes:

* `untagged_history`: no pattern asks for a tag, so no key of a route is left out of the list;
* `Table.Writes` is the path that stands for some keys, with the names the routes agree on;
  `writes_of_labels` finds it in the tree;
* `routes_exact` puts them together: every place where the history has a value is on the list, once, and
  nothing else is.
-/

namespace RouteTree

open Segment (keysOf fillsAt bindsAt keysOf_append)

variable {V : Type}

/-! ## 1. Keys without tags -/

/-- The segment is no tag. -/
def Segment.IsUntagged (s : Segment) : Prop := ∀ name, s ≠ .tag name

theorem Segment.IsWritten.isUntagged {s : Segment} (h : s.IsWritten) : s.IsUntagged := by
  intro name he
  rcases h with ⟨text, rfl⟩ | ⟨t, rfl⟩ <;> cases he

/-- The call inserts no tag. A pattern has none. -/
def Call.Untagged : Call V → Prop
  | .insert segments _ => ∀ s ∈ segments, s.IsUntagged
  | _ => True

theorem mem_of_mem_cut {s : Segment} : ∀ {path : List Segment},
    s ∈ Node.cutAfterCatchAll path → s ∈ path
  | x :: rest, h => by
    unfold Node.cutAfterCatchAll at h
    split at h
    · rw [List.mem_singleton.mp h]
      exact List.mem_cons_self
    · rcases List.mem_cons.mp h with rfl | h
      · exact List.mem_cons_self
      · exact List.mem_cons_of_mem x (mem_of_mem_cut h)

/-- Each route of a set is what its pattern stands for. -/
theorem mem_parseRoutes : ∀ {paths : List (String × V)} {routes : List (Route V)},
    ApiSpec.parseRoutes paths = .ok routes → ∀ r ∈ routes, ∃ p ∈ paths, Pattern.parse p.1 = .ok r.1
  | [], routes, h, r, hr => by
    cases h
    cases hr
  | (pattern, value) :: rest, routes, h, r, hr => by
    unfold ApiSpec.parseRoutes at h
    split at h
    · cases h
    · rename_i segments hp
      split at h
      · cases h
      · rename_i more hmore
        cases h
        rcases List.mem_cons.mp hr with rfl | hr
        · exact ⟨_, List.mem_cons_self, hp⟩
        · obtain ⟨q, hq, hparse⟩ := mem_parseRoutes hmore r hr
          exact ⟨q, List.mem_cons_of_mem _ hq, hparse⟩

theorem written_mounts {spec : ApiSpec V} {mounts : List (List Segment)}
    (h : spec.mountPoints = .ok mounts) : ∀ mount ∈ mounts, ∀ s ∈ mount, s.IsWritten := by
  intro mount hm
  unfold ApiSpec.mountPoints at h
  split at h
  · cases h
    rw [List.mem_singleton.mp hm]
    intro s hs
    cases hs
  · obtain ⟨p, -, hp⟩ := ApiSpec.mem_parseMounts h mount hm
    exact Pattern.isWritten_of_parse hp

theorem untagged_routes {c : Call V} (hc : c.Untagged) : ∀ r ∈ c.routes, ∀ s ∈ r.1, s.IsUntagged := by
  intro r hr s hs
  cases c with
  | insert segments value =>
    obtain rfl := List.mem_singleton.mp hr
    exact hc s (mem_of_mem_cut hs)
  | insertPattern pattern value =>
    rw [Call.routes] at hr
    split at hr
    · rename_i segments hp
      obtain rfl := List.mem_singleton.mp hr
      exact (Pattern.isWritten_of_parse hp s (mem_of_mem_cut hs)).isUntagged
    · cases hr
  | addSpec spec =>
    rw [Call.routes] at hr
    split at hr
    · rename_i routes mounts hp hm
      obtain ⟨row, hrow, rfl⟩ := List.mem_map.mp hr
      obtain ⟨mount, hmount, hrow⟩ := List.mem_flatMap.mp hrow
      obtain ⟨q, hq, rfl⟩ := List.mem_map.mp hrow
      rcases List.mem_append.mp (mem_of_mem_cut hs) with hs | hs
      · exact (written_mounts hm mount hmount s hs).isUntagged
      · obtain ⟨p, -, hparse⟩ := mem_parseRoutes hp q hq
        exact (Pattern.isWritten_of_parse hparse s hs).isUntagged
    · cases hr

theorem untagged_history {calls : List (Call V)} {r : Router V} (hu : ∀ c ∈ calls, c.Untagged) :
    ∀ route ∈ r.history calls, ∀ s ∈ route.1, s.IsUntagged := by
  intro route h
  obtain ⟨c, hc, hroute⟩ := Router.exists_call_of_mem_history h
  exact untagged_routes (hu c hc) route hroute

namespace Table

theorem passes_of_value {t : Table V} {K : List Key} {v : V} (h : t.value K = some v) :
    t.passes K = true := by
  obtain ⟨r, hr, -⟩ := Option.map_eq_some_iff.mp h
  have hmem : r ∈ t ∧ K <+: keysOf r.1 := by
    rcases Option.or_eq_some_iff.mp hr with he | ⟨-, hf⟩
    · obtain ⟨hr, hk⟩ := List.mem_filter.mp (List.mem_of_getLast? he)
      rw [← of_decide_eq_true hk]
      exact ⟨hr, List.prefix_rfl⟩
    · refine ⟨List.mem_of_find?_eq_some hf, ?_⟩
      have hfills : fillsAt r.1 K = true := List.find?_some (p := fun r : Route V => fillsAt r.1 K) hf
      obtain ⟨front, s, back, hpath, -, hK⟩ := (Segment.fillsAt_iff r.1 K).mp hfills
      rw [hpath]
      rcases hK with rfl | rfl
      · exact ⟨keysOf (s :: back), (keysOf_append _ _).symm⟩
      · exact ⟨keysOf back, by rw [← keysOf_append, List.append_assoc]; rfl⟩
  exact List.any_eq_true.mpr ⟨r, hmem.1, List.isPrefixOf_iff_prefix.mpr hmem.2⟩

/-- A route that goes on with a key after some others has a segment for it there. -/
theorem exists_segment_of_passes {t : Table V} {P : List Key} {k : Key} {K : List Key}
    (h : t.passes (P ++ k :: K) = true) : ∃ r ∈ t, ∃ front s back, r.1 = front ++ s :: back ∧
      keysOf front = P ∧ s.key = k := by
  obtain ⟨r, hr, hpre⟩ := List.any_eq_true.mp h
  obtain ⟨L, hL⟩ := List.isPrefixOf_iff_prefix.mp hpre
  rw [List.append_assoc] at hL
  obtain ⟨front, tail, hpath, hfront, htail⟩ := List.map_eq_append_iff.mp hL.symm
  obtain ⟨s, back, rfl, hs, -⟩ := List.map_eq_cons_iff.mp htail
  exact ⟨r, hr, front, s, back, hpath, hfront, hs⟩

/-- The path that some routes go on with after the keys `P` is written so: a concrete component as it is,
    and an open one by the one name that the routes give it. -/
def Writes (t : Table V) : List Key → List Key → List String → Prop
  | _, [], path => path = []
  | _, _ :: _, [] => False
  | P, k :: K, label :: path =>
    (match k with
      | .exact text => label = text
      | .wild => ∃ a, (∀ b, t.names (P ++ [k]) b ↔ b = a) ∧ label = "\x7b" ++ a ++ "\x7d"
      | .catchAll => ∃ a, (∀ b, t.names (P ++ [k]) b ↔ b = a) ∧ label = "\x7b+" ++ a ++ "\x7d"
      | .tag _ => False) ∧
    t.Writes (P ++ [k]) K path

/-- An open component that routes go through has a name. -/
theorem exists_names {t : Table V} {P : List Key} {k : Key} {K : List Key}
    (h : t.passes (P ++ k :: K) = true) (hk : k = .wild ∨ k = .catchAll) :
    ∃ a, t.names (P ++ [k]) a := by
  obtain ⟨r, hr, front, s, back, hpath, rfl, rfl⟩ := exists_segment_of_passes h
  cases s with
  | param u =>
    refine ⟨u.name, r, hr, (Segment.bindsAt_iff r.1 u.name _).mpr ⟨front, u, back, hpath, rfl, ?_⟩⟩
    rw [keysOf_append]
    rfl
  | literal text => exact hk.elim (fun h => nomatch h) fun h => nomatch h
  | reserved text => exact hk.elim (fun h => nomatch h) fun h => nomatch h
  | tag name => exact hk.elim (fun h => nomatch h) fun h => nomatch h

theorem untagged_of_passes {t : Table V} (ht : ∀ r ∈ t, ∀ s ∈ r.1, s.IsUntagged) {K : List Key}
    (h : t.passes K = true) : ∀ k ∈ K, ∀ tag, k ≠ .tag tag := by
  intro k hk tag he
  obtain ⟨r, hr, hpre⟩ := List.any_eq_true.mp h
  have hmem : k ∈ keysOf r.1 := (List.isPrefixOf_iff_prefix.mp hpre).subset hk
  obtain ⟨s, hs, hkey⟩ := List.mem_map.mp hmem
  rw [he] at hkey
  cases s with
  | tag name => exact ht r hr _ hs name rfl
  | literal text => cases hkey
  | reserved text => cases hkey
  | param u =>
    rw [Segment.key, Template.key] at hkey
    split at hkey
    · cases hkey
    · split at hkey <;> cases hkey

end Table

/-! ## 2. The paths that are shown -/

namespace Node

/-- The name of a node that routes lead through is the one that they give it. -/
theorem Holds.names_iff {root : Node V} {t : Table V} (h : root.Holds t) {P : List Key} {k : Key}
    {K : List Key} (hp : t.passes (P ++ k :: K) = true) (hk : k = .wild ∨ k = .catchAll)
    {child : Node V} (hc : root.at? (P ++ [k]) = some child) :
    ∃ a, child.name = some a ∧ ∀ b, t.names (P ++ [k]) b ↔ b = a := by
  obtain ⟨a, ha⟩ := Table.exists_names hp hk
  have name : ∀ b, t.names (P ++ [k]) b → child.name = some b := fun b hb => by
    have := h.name _ b hb
    rw [hc] at this
    exact this
  refine ⟨a, name a ha, fun b => ⟨fun hb => ?_, fun hb => hb ▸ ha⟩⟩
  exact Option.some.inj ((name b hb).symm.trans (name a ha))

/-- **The path that is shown is the one of the table.** The recursion is along the keys. -/
theorem writes_of_labels {root : Node V} {t : Table V} (h : root.Holds t) : ∀ (K P : List Key)
    {n : Node V} {path : List String}, root.at? P = some n → t.passes (P ++ K) = true →
    n.labels? K = some path → t.Writes P K path
  | [], P, n, path, _, _, hpath => (Option.some.inj hpath).symm
  | k :: K, P, n, path, hn, hp, hpath => by
    rw [labels?] at hpath
    obtain ⟨child, hc, hpath⟩ := Option.bind_eq_some_iff.mp hpath
    obtain ⟨label, hl, hpath⟩ := Option.bind_eq_some_iff.mp hpath
    obtain ⟨below, hbelow, rfl⟩ := Option.map_eq_some_iff.mp hpath
    have hat : root.at? (P ++ [k]) = some child := by
      rw [at?_append, hn, Option.bind_some, at?_cons, hc]
      rfl
    have hpasses : t.passes (P ++ [k] ++ K) = true := by
      rw [List.append_assoc]
      exact hp
    refine ⟨?_, writes_of_labels h K (P ++ [k]) hat hpasses hbelow⟩
    cases k with
    | exact text => exact (Option.some.inj hl).symm
    | wild =>
      obtain ⟨a, ha, hnames⟩ := h.names_iff hp (.inl rfl) hat
      rw [ha] at hl
      exact ⟨a, hnames, (Option.some.inj hl).symm⟩
    | catchAll =>
      obtain ⟨a, ha, hnames⟩ := h.names_iff hp (.inr rfl) hat
      rw [ha] at hl
      exact ⟨a, hnames, (Option.some.inj hl).symm⟩
    | tag name => cases hl

end Node

/-! ## 3. The list -/

namespace Router

/-- **The list of the routes is exact.** Let calls be made on the empty router that mount nothing under a
    template that may be absent or takes all that is left; the routes they name are those of patterns, or
    have no tags. Then each route of the list has a place, the keys that lead to it, such that

    * the places stand in the order of their keys: a node before what is below it, its concrete
      components by their text, then the open one, then the one for all that is left. So no place comes
      twice;
    * at each place the history has the value that is listed, and the path that is listed is written
      for its keys;
    * every place where the history has a value is among them. -/
theorem routes_exact {calls : List (Call V)} (hu : ∀ c ∈ calls, c.Untagged)
    (hp : ∀ c ∈ calls, c.PlainMounts) :
    let t := empty.history calls
    ∃ places : List (List Key × List String × V),
      (empty.afterAll calls).routes = places.map Prod.snd ∧
      places.Pairwise (fun p q => p.1 < q.1) ∧
      (∀ K path v, (K, path, v) ∈ places → t.value K = some v ∧ t.Writes [] K path) ∧
      ∀ K v, t.value K = some v → ∃ path, (K, path, v) ∈ places := by
  intro t
  have hs : (empty.afterAll calls).root.Holds t := holds_history hp
  have hc : (empty.afterAll calls).root.Canonical := canonical_afterAll calls Node.canonical_empty hp
  have hu : ∀ route ∈ t, ∀ s ∈ route.1, s.IsUntagged := untagged_history hu
  obtain ⟨places, hplaces⟩ := Node.exists_lists _ hc
  refine ⟨places, hplaces.routes.symm, hplaces.order, fun K path v hmem => ?_, fun K v hv => ?_⟩
  · obtain ⟨hlabels, hvalue⟩ := (hplaces.mem _).mp hmem
    have hv : t.value K = some v := (hs.value K).symm.trans hvalue
    exact ⟨hv, Node.writes_of_labels hs K [] rfl (Table.passes_of_value hv) hlabels⟩
  · have hvalue := (hs.value K).trans hv
    obtain ⟨m, hm, -⟩ := Option.bind_eq_some_iff.mp hvalue
    obtain ⟨path, hpath⟩ :=
      Node.exists_labels hm (Table.untagged_of_passes hu (Table.passes_of_value hv))
    exact ⟨path, (hplaces.mem _).mpr ⟨hpath, hvalue⟩⟩

/-- A set without routes leaves a branch behind, which a later set takes. A route that is complete
    without its last component is listed twice, and one that takes all that is left once. -/
theorem routes_exact_sites :
    let files : ApiSpec String := ⟨["/site/{page}", "/{host}"], [("/{+rest}", "files")]⟩
    let calls : List (Call String) :=
      [.addSpec ⟨["/site/{page}"], []⟩, .insertPattern "/wiki{/lang}" "wiki", .addSpec files]
    let t := empty.history calls
    (empty.afterAll calls).routes = [(["site", "{page}", "{+rest}"], "files"), (["wiki"], "wiki"),
        (["wiki", "{lang}"], "wiki"), (["{host}", "{+rest}"], "files")] ∧
      ∃ places : List (List Key × List String × String),
        (empty.afterAll calls).routes = places.map Prod.snd ∧
        places.Pairwise (fun p q => p.1 < q.1) ∧
        (∀ K path v, (K, path, v) ∈ places → t.value K = some v ∧ t.Writes [] K path) ∧
        ∀ K v, t.value K = some v → ∃ path, (K, path, v) ∈ places := by
  intro files calls t
  have hu : ∀ c ∈ calls, c.Untagged := by simp [calls, Call.Untagged]
  have hp : ∀ c ∈ calls, c.PlainMounts := by
    have hfirst : ApiSpec.mountPoints (⟨["/site/{page}"], []⟩ : ApiSpec String)
        = .ok [[.literal "site", .param ⟨"page", none, none⟩]] := by with_unfolding_all rfl
    have hlast : files.mountPoints
        = .ok [[.literal "site", .param ⟨"page", none, none⟩], [.param ⟨"host", none, none⟩]] := by
      with_unfolding_all rfl
    simp [calls, Call.PlainMounts, hfirst, hlast, Segment.isPlain, Segment.isOptional,
      Segment.isCatchAll, Template.isOptional, Template.isCatchAll]
  exact ⟨by decide +kernel, routes_exact hu hp⟩

end Router

end RouteTree
