import RouteTree.Proofs.Node.Canonical
import RouteTree.Proofs.Node.Kept

/-!
# What a tree holds, whatever was mounted

A set of routes that is empty is mounted as well: it leaves a branch without a value, and a later graft
may take the end of that branch, with the name it has. So a tree shows a table exactly only as long as no
such set is mounted. This file proves what holds of every tree:

* `Holds` leaves open which nodes without a value there are. Each value is the one that the table has,
  and each name that the table has is the one of its node;
* `Taken` is what a graft that is not refused makes of a tree, seen along the keys;
  `taken_of_graft` proves it by recursion along the mount;
* `Table.value_behind` says what a table has behind a mount;
* `Holds.extend` and `Holds.mounted` are the steps, `Holds.mountAll` and `Canonical.mountAll` the runs.
-/

namespace RouteTree

open Segment (keysOf fillsAt bindsAt IsCut isCut_cut keysOf_append keysOf_cons)

variable {V : Type}

/-! ## 1. Tables behind a mount -/

namespace Segment

section
variable (path : List Segment)

theorem fillsAt_behind : ∀ {mount : List Segment}, (∀ s ∈ mount, s.isPlain = true) →
    ∀ K : List Key, fillsAt (mount ++ path) (keysOf mount ++ K) = fillsAt path K
  | [], _, _ => rfl
  | s :: mount, h, K => by
    have hs := not_isOptional_of_isPlain (h s List.mem_cons_self)
    have ih := fillsAt_behind (fun x hx => h x (List.mem_cons_of_mem s hx)) K
    simp only [List.cons_append, keysOf_cons, fillsAt, hs, ih]
    simp

/-- No segment of the mount may be absent, so a path behind it fills nothing in on the way there. -/
theorem fillsAt_beside : ∀ {mount : List Segment}, (∀ s ∈ mount, s.isPlain = true) →
    ∀ {K : List Key}, ¬ keysOf mount <+: K → fillsAt (mount ++ path) K = false
  | [], _, K, hK => absurd List.nil_prefix hK
  | s :: mount, h, [], _ => not_isOptional_of_isPlain (h s List.mem_cons_self)
  | s :: mount, h, k :: K, hK => by
    have hs := not_isOptional_of_isPlain (h s List.mem_cons_self)
    rw [List.cons_append, fillsAt, hs]
    by_cases hk : k = s.key
    · have hrest : ¬ keysOf mount <+: K := fun hp => hK (by
        rw [keysOf_cons, hk]
        exact (List.prefix_cons_inj s.key).mpr hp)
      rw [fillsAt_beside (fun x hx => h x (List.mem_cons_of_mem s hx)) hrest]
      simp
    · simp [hk]

end

/-- What a path binds behind a mount: what the mount binds on the way there, and what the path does
    behind it. -/
theorem bindsAt_append {path : List Segment} {a : String} : ∀ {mount : List Segment} {K : List Key},
    bindsAt (mount ++ path) K = some a →
      bindsAt mount K = some a ∨ ∃ k L, K = keysOf mount ++ k :: L ∧ bindsAt path (k :: L) = some a
  | _, [], h => by
    rw [bindsAt_nil] at h
    cases h
  | [], k :: K, h => Or.inr ⟨k, K, rfl, h⟩
  | s :: mount, [k], h => Or.inl h
  | s :: mount, j :: k :: K, h => by
    rw [List.cons_append, bindsAt_cons] at h
    split at h
    · rename_i hj
      rcases bindsAt_append h with h | ⟨i, L, hK, h⟩
      · exact Or.inl (by rw [bindsAt_cons, if_pos hj, h])
      · exact Or.inr ⟨i, L, by rw [hK, hj]; rfl, h⟩
    · cases h

end Segment

namespace Table

/-- The routes of a table behind a mount. -/
def behind (mount : List Segment) (t : Table V) : Table V := t.map fun r => (mount ++ r.1, r.2)

section
variable (t u : Table V) {K : List Key}

theorem ending?_append (K : List Key) : (t ++ u).ending? K = (u.ending? K).or (t.ending? K) := by
  rw [ending?, List.filter_append, List.getLast?_append]
  rfl

theorem filling?_append (K : List Key) : (t ++ u).filling? K = (t.filling? K).or (u.filling? K) :=
  List.find?_append

theorem value_eq_none_iff : t.value K = none ↔ t.ending? K = none ∧ t.filling? K = none := by
  rw [value, Option.map_eq_none_iff, Option.or_eq_none_iff]

/-- Where a table has no value, later routes decide alone. -/
theorem value_append_of_none (h : t.value K = none) : (t ++ u).value K = u.value K := by
  obtain ⟨he, hf⟩ := (value_eq_none_iff t).mp h
  rw [value, ending?_append, filling?_append, he, hf, Option.or_none, Option.none_or, value]

/-- Where later routes have no value, they change nothing. -/
theorem value_append_none (h : u.value K = none) : (t ++ u).value K = t.value K := by
  obtain ⟨he, hf⟩ := (value_eq_none_iff u).mp h
  rw [value, ending?_append, filling?_append, he, hf, Option.or_none, Option.none_or, value]

end

theorem passes_of_names {t : Table V} {K : List Key} {a : String} (h : t.names K a) :
    t.passes K = true := by
  obtain ⟨r, hr, hb⟩ := h
  obtain ⟨front, u, back, hpath, -, rfl⟩ := (Segment.bindsAt_iff r.1 a K).mp hb
  refine List.any_eq_true.mpr ⟨r, hr, List.isPrefixOf_iff_prefix.mpr ⟨keysOf back, ?_⟩⟩
  rw [hpath, ← keysOf_append, List.append_assoc]
  rfl

section
variable {mount : List Segment} (hp : ∀ s ∈ mount, s.isPlain = true) (t : Table V)
include hp

theorem value_behind (K : List Key) : (behind mount t).value (keysOf mount ++ K) = t.value K := by
  have he : (behind mount t).ending? (keysOf mount ++ K)
      = (t.ending? K).map fun r => (mount ++ r.1, r.2) := by
    unfold behind ending?
    rw [List.filter_map, List.getLast?_map]
    simp [Function.comp_def]
  have hf : (behind mount t).filling? (keysOf mount ++ K)
      = (t.filling? K).map fun r => (mount ++ r.1, r.2) := by
    unfold behind filling?
    rw [List.find?_map]
    have hfills : (fun r : Route V => fillsAt r.1 (keysOf mount ++ K))
          ∘ (fun r : Route V => (mount ++ r.1, r.2)) = fun r => fillsAt r.1 K :=
      funext fun r => Segment.fillsAt_behind r.1 hp K
    rw [hfills]
  rw [value, he, hf, value]
  cases t.ending? K <;> cases t.filling? K <;> rfl

theorem value_beside {K : List Key} (hK : ¬ keysOf mount <+: K) : (behind mount t).value K = none := by
  have he : (behind mount t).ending? K = none := by
    unfold behind ending?
    rw [List.getLast?_eq_none_iff, List.filter_eq_nil_iff]
    intro r hr hkeys
    obtain ⟨q, -, rfl⟩ := List.mem_map.mp hr
    refine hK ⟨keysOf q.1, ?_⟩
    rw [← keysOf_append]
    exact of_decide_eq_true hkeys
  have hf : (behind mount t).filling? K = none := by
    unfold behind filling?
    rw [List.find?_eq_none]
    intro r hr hfill
    obtain ⟨q, -, rfl⟩ := List.mem_map.mp hr
    rw [Segment.fillsAt_beside q.1 hp hK] at hfill
    cases hfill
  rw [value, he, hf]
  rfl

end

end Table

namespace Node

/-! ## 2. What a graft makes of a tree -/

/-- What is made of `n` by a graft of `tree` that is not refused: nothing had a value where it is put,
    and elsewhere the values stay. -/
structure Taken (n tree m : Node V) (mount : List Segment) : Prop where
  free : ∀ L, (n.at? (keysOf mount ++ L)).bind Node.value = none
  top : (m.at? (keysOf mount)).bind Node.value = tree.value
  below : ∀ k L, m.at? (keysOf mount ++ k :: L) = tree.at? (k :: L)
  beside : ∀ K, ¬ keysOf mount <+: K → (m.at? K).bind Node.value = (n.at? K).bind Node.value

theorem value_of_unused {n : Node V} (h : n.isUsed = false) (K : List Key) :
    (n.at? K).bind Node.value = none := by
  cases K with
  | nil =>
    simp only [isUsed, Bool.or_eq_false_iff, Option.isSome_eq_false_iff, Option.isNone_iff_eq_none] at h
    exact h.1
  | cons k K =>
    cases hc : n.child? k with
    | none =>
      rw [at?_cons, hc]
      rfl
    | some child =>
      rw [isUsed_of_child? hc] at h
      cases h

/-- Going down one segment: `slot` has the values that the tree has below its key, and what is made of
    it comes under that key. -/
theorem Taken.cons {n slot tree below child : Node V} {s : Segment} {rest : List Segment}
    (h : Taken slot tree below rest)
    (hslot : ∀ K, (n.at? (s.key :: K)).bind Node.value = (slot.at? K).bind Node.value)
    (hv : child.value = below.value) (he : child.edges = below.edges) :
    Taken n tree (n.setChild s.key child) (s :: rest) := by
  have hchild : ∀ K, (child.at? K).bind Node.value = (below.at? K).bind Node.value := fun K => by
    cases K with
    | nil => exact hv
    | cons k K => rw [at?_of_edges he]
  have hat : ∀ K, (n.setChild s.key child).at? (s.key :: K) = child.at? K := fun K => by
    rw [at?_setChild, if_pos rfl]
  refine ⟨fun L => ?_, ?_, fun k L => ?_, fun K hK => ?_⟩
  · rw [keysOf_cons, List.cons_append, hslot]
    exact h.free L
  · rw [keysOf_cons, hat, hchild]
    exact h.top
  · rw [keysOf_cons, List.cons_append, hat, ← h.below]
    cases hr : keysOf rest with
    | nil => exact at?_of_edges he k L
    | cons j J => exact at?_of_edges he j _
  · cases K with
    | nil => rfl
    | cons j K =>
      by_cases hj : j = s.key
      · have hrest : ¬ keysOf rest <+: K := fun hp => hK (by
          rw [keysOf_cons, hj]
          exact (List.prefix_cons_inj s.key).mpr hp)
        rw [hj, hat, hchild, hslot]
        exact h.beside K hrest
      · rw [at?_setChild, if_neg hj]

/-- A tree that takes the place of a node without a value. -/
theorem taken_nil {n : Node V} (h : ∀ K, (n.at? K).bind Node.value = none) (tree : Node V) :
    Taken n tree tree [] where
  free := h
  top := rfl
  below _ _ := rfl
  beside _ hK := absurd List.nil_prefix hK

theorem value_of_child {n child : Node V} {k : Key} (hc : n.child? k = some child) (K : List Key) :
    (n.at? (k :: K)).bind Node.value = (child.at? K).bind Node.value := by
  rw [at?_cons, hc]
  rfl

theorem value_adopt (n : Node V) (s : Segment) (K : List Key) :
    ((n.adopt s).at? K).bind Node.value = (n.at? K).bind Node.value := by
  rw [adopt_eq_renamed]
  cases K with
  | nil => rfl
  | cons k K => rw [at?_renamed]

/-- **What a graft that is not refused makes of a tree.** -/
theorem taken_of_graft {tree : Node V} : ∀ {mount : List Segment} {n m : Node V},
    n.graft tree mount = .ok (m, true) → Taken n tree m mount
  | [], n, m, h => by
    rw [graft] at h
    cases hu : n.isUsed with
    | true =>
      rw [hu] at h
      cases h
    | false =>
      rw [hu] at h
      cases h
      exact taken_nil (value_of_unused hu) tree
  | s :: rest, n, m, h => by
    rcases graft_cases h with ⟨hc, -, below, flag, hg, rfl⟩
        | ⟨child, hc, -, ⟨below, hg, rfl⟩ | ⟨rfl, hu, -, rfl⟩⟩
    · obtain rfl := graft_empty_shared hg
      have hslot : ∀ K, (n.at? (s.key :: K)).bind Node.value
          = ((empty : Node V).at? K).bind Node.value := fun K => by
        rw [at?_cons, hc]
        cases K <;> rfl
      refine (taken_of_graft hg).cons hslot ?_ ?_ <;> rw [namedBy_eq_renamed] <;> rfl
    · exact (taken_of_graft hg).cons
        (fun K => (value_of_child hc K).trans (value_adopt child s K).symm) rfl rfl
    · refine (taken_nil (value_of_unused hu) tree).cons (value_of_child hc) ?_ ?_ <;>
        rw [namedBy_eq_renamed] <;> rfl

/-- A graft that is refused leaves all values as they are. -/
theorem value_of_refused {tree : Node V} : ∀ {mount : List Segment} {n m : Node V},
    n.graft tree mount = .ok (m, false) → ∀ K, (m.at? K).bind Node.value = (n.at? K).bind Node.value
  | [], n, m, h, K => by rw [eq_of_refused_nil h]
  | s :: rest, n, m, h, K => by
    obtain ⟨child, below, hc, hg, rfl⟩ := refused_cases h
    cases K with
    | nil => rfl
    | cons k K =>
      rw [at?_setChild]
      by_cases hk : k = s.key
      · rw [if_pos hk, hk, value_of_refused hg, value_adopt, value_of_child hc]
      · rw [if_neg hk]

theorem adopt_name_of_nameOf {n : Node V} {s : Segment} {a : String} (h : n.checkName s = .ok ())
    (ha : nameOf s = some a) : (n.adopt s).name = some a := by
  cases s with
  | param t => exact (adopt_name_of_checkName h).trans ha
  | literal _ => cases ha
  | reserved _ => cases ha
  | tag _ => cases ha

/-- The end of a mount has the name that its last segment has for it. -/
theorem graft_last {tree n m : Node V} {s : Segment} {shared : Bool}
    (h : n.graft tree [s] = .ok (m, shared)) :
    ∃ child, m = n.setChild s.key child ∧ ∀ a, nameOf s = some a → child.name = some a := by
  have put : ∀ a, nameOf s = some a → (tree.namedBy s).name = some a := fun a ha => by
    rw [namedBy_eq_renamed, ha]
    rfl
  rw [graft] at h
  cases hc : n.child? s.key with
  | none =>
    rw [hc] at h
    cases h
    exact ⟨_, rfl, put⟩
  | some child =>
    rw [hc] at h
    dsimp only at h
    cases hk : child.checkName s with
    | error e =>
      rw [hk] at h
      cases h
    | ok _ =>
      rw [hk] at h
      cases hu : child.isUsed with
      | true =>
        rw [hu] at h
        cases h
        exact ⟨_, rfl, fun a ha => adopt_name_of_nameOf hk ha⟩
      | false =>
        rw [hu] at h
        cases h
        exact ⟨_, rfl, put⟩

theorem name_setChild {n child : Node V} {s : Segment} {rest : List Segment}
    (hs : ∀ a, nameOf s = some a → child.name = some a)
    (hrest : ∀ {k L a}, bindsAt rest (k :: L) = some a → (child.at? (k :: L)).bind Node.name = some a) :
    ∀ {K : List Key} {a : String}, bindsAt (s :: rest) K = some a →
      ((n.setChild s.key child).at? K).bind Node.name = some a
  | [], a, h => by cases h
  | [k], a, h => by
    rw [Segment.bindsAt_single] at h
    split at h
    · rename_i hk
      rw [at?_setChild, if_pos hk]
      exact hs a h
    · cases h
  | j :: k :: K, a, h => by
    rw [Segment.bindsAt_cons] at h
    split at h
    · rename_i hj
      rw [at?_setChild, if_pos hj]
      exact hrest h
    · cases h

/-- **A mount names the nodes that its templates lead to**, whether the graft is refused or not. -/
theorem name_of_graft {tree : Node V} : ∀ {mount : List Segment} {n m : Node V} {shared : Bool},
    n.graft tree mount = .ok (m, shared) → ∀ {K : List Key} {a : String},
      bindsAt mount K = some a → (m.at? K).bind Node.name = some a
  | [], _, _, _, _, K, a, hb => by
    rw [Segment.bindsAt_of_nil] at hb
    cases hb
  | [s], n, m, shared, h, K, a, hb => by
    obtain ⟨child, rfl, hname⟩ := graft_last h
    exact name_setChild hname (fun hL => by cases hL) hb
  | s :: next :: rest, n, m, shared, h, K, a, hb => by
    rcases graft_cases h with ⟨-, -, below, flag, hg, rfl⟩
        | ⟨child, -, hk, ⟨below, hg, rfl⟩ | ⟨hnil, -⟩⟩
    · refine name_setChild (fun a ha => ?_) (fun {k L a} hL => ?_) hb
      · rw [namedBy_eq_renamed, ha]
        rfl
      · rw [namedBy_eq_renamed, at?_renamed]
        exact name_of_graft hg hL
    · refine name_setChild (fun a ha => ?_) (name_of_graft hg) hb
      rw [graft_name hg]
      exact adopt_name_of_nameOf hk ha
    · cases hnil

/-! ## 3. Trees that hold a table -/

/-- **A tree holds a table**: at the end of every sequence of keys it has the value that the table has
    there, and the name that its routes have for the component. -/
structure Holds (n : Node V) (t : Table V) : Prop where
  value : ∀ K, (n.at? K).bind Node.value = t.value K
  name : ∀ K a, t.names K a → (n.at? K).bind Node.name = some a

theorem holds_empty : Holds (empty : Node V) [] where
  value K := by cases K <;> rfl
  name K a h := by
    obtain ⟨r, hr, -⟩ := h
    cases hr

section
variable {n n' : Node V} {t : Table V}

theorem Holds.extend (hn : Holds n t) {v : V} {path : List Segment} (hcut : IsCut path)
    (h : n.extend v path = .ok n') : Holds n' (t ++ [(path, v)]) where
  value K := by rw [(grown_of_extend hcut h).value, hn.value, Table.value_snoc]
  name K a hname := by
    rw [(grown_of_extend hcut h).name]
    rcases (Table.names_snoc t (path, v) K a).mp hname with hold | hnew
    · rw [hn.name K a hold]
      rfl
    · cases hold : (n.at? K).bind Node.name with
      | none => exact hnew
      | some old => exact congrArg some (name_eq_of_extend h hold hnew)

theorem Holds.insertAll : ∀ (routes : List (Route V)) {n n' : Node V} {t : Table V}, Holds n t →
    (n.insertAll [] routes).outcome = .ok n' → Holds n' (t ++ routes.map cutRoute)
  | [], _, _, t, hn, h => by
    cases h
    rw [List.map_nil, List.append_nil]
    exact hn
  | (p, v) :: routes, n, n', t, hn, h => by
    rw [outcome_insertAll_cons, List.nil_append] at h
    obtain ⟨m, hx, h⟩ := Attempt.ok_of_bind h
    have ih := Holds.insertAll routes (hn.extend (isCut_cut p) hx) h
    rw [List.append_assoc] at ih
    exact ih

/-- Where a route passes there is a node in use: the route has a value at its end. -/
theorem Holds.used (hn : Holds n t) {K : List Key} (hp : t.passes K = true) :
    ∃ m, n.at? K = some m ∧ m.isUsed = true := by
  obtain ⟨r, hr, hpre⟩ := List.any_eq_true.mp hp
  obtain ⟨L, hL⟩ := List.isPrefixOf_iff_prefix.mp hpre
  have hv : ((n.at? (K ++ L)).bind Node.value).isSome = true := by
    rw [hn.value, hL]
    exact Table.value_isSome_of_mem hr
  rw [at?_append] at hv
  cases hm : n.at? K with
  | none =>
    rw [hm] at hv
    cases hv
  | some m =>
    rw [hm] at hv
    exact ⟨m, rfl, Bears.isUsed ⟨L, hv⟩⟩

/-- What is kept of a tree keeps the names of a table. -/
theorem Holds.name_kept (hn : Holds n t) (hk : Kept n n') {K : List Key} {a : String}
    (h : t.names K a) : (n'.at? K).bind Node.name = some a := by
  obtain ⟨m, hm, hu⟩ := hn.used (Table.passes_of_names h)
  obtain ⟨m', hm', ho⟩ := hk K m hm
  have hname := hn.name K a h
  rw [hm] at hname
  rw [hm']
  exact (ho hu).2 a hname

end

/-! ## 4. Mounting -/

section
variable {tree : Node V} {routes : List (Route V)} {mount : List Segment}

theorem cutRoutes_rowsAt (hp : ∀ s ∈ mount, s.isPlain = true) (routes : List (Route V)) :
    (rowsAt routes [mount]).map cutRoute = Table.behind mount (routes.map cutRoute) := by
  rw [rowsAt, List.flatMap_singleton, Table.behind, List.map_map, List.map_map]
  refine List.map_congr_left fun r _ => ?_
  exact congrArg (·, r.2) (cut_append r.1 hp)

/-- A tree that is grafted adds its table, behind the mount. -/
theorem Holds.taken {n m : Node V} {t u : Table V} (hn : Holds n t) (htree : Holds tree u)
    (hp : ∀ s ∈ mount, s.isPlain = true) (h : n.graft tree mount = .ok (m, true)) :
    Holds m (t ++ Table.behind mount u) where
  value K := by
    have ht := taken_of_graft h
    by_cases hK : keysOf mount <+: K
    · obtain ⟨L, rfl⟩ := hK
      have hfree : t.value (keysOf mount ++ L) = none := by rw [← hn.value, ht.free]
      rw [Table.value_append_of_none t _ hfree, Table.value_behind hp, ← htree.value]
      cases L with
      | nil =>
        rw [List.append_nil]
        exact ht.top
      | cons k L => rw [ht.below]
    · rw [Table.value_append_none t _ (Table.value_beside hp u hK), ht.beside K hK, hn.value]
  name K a hname := by
    obtain ⟨r, hr, hb⟩ := hname
    rcases List.mem_append.mp hr with hr | hr
    · exact hn.name_kept (kept_of_graft h) ⟨r, hr, hb⟩
    · obtain ⟨q, hq, rfl⟩ := List.mem_map.mp hr
      have hb : bindsAt (mount ++ q.1) K = some a := hb
      rcases Segment.bindsAt_append hb with hmount | ⟨k, L, rfl, hL⟩
      · exact name_of_graft h hmount
      · rw [(taken_of_graft h).below]
        exact htree.name (k :: L) a ⟨q, hq, hL⟩

/-- **Mounting adds the routes to the table that the tree holds**, whether their tree is grafted or they
    are inserted one by one, and whether there are any or none. -/
theorem Holds.mounted {n m : Node V} {t : Table V} (hn : Holds n t)
    (ht : (Node.empty.insertAll [] routes).outcome = .ok tree) (hp : ∀ s ∈ mount, s.isPlain = true)
    (h : n.mounted tree routes mount = .ok m) :
    Holds m (t ++ (rowsAt routes [mount]).map cutRoute) := by
  have htree : Holds tree (routes.map cutRoute) := Holds.insertAll routes holds_empty ht
  obtain ⟨⟨below, shared⟩, hg, h⟩ := Attempt.ok_of_bind h
  cases shared with
  | true =>
    cases h
    rw [cutRoutes_rowsAt hp]
    exact hn.taken htree hp hg
  | false =>
    have hbelow : Holds below t :=
      ⟨fun K => (value_of_refused hg K).trans (hn.value K),
        fun K a ha => hn.name_kept (kept_of_graft hg) ha⟩
    refine hbelow.insertAll (rowsAt routes [mount]) ?_
    rw [rowsAt, List.flatMap_singleton, insertAll_behind]
    exact h

theorem Holds.mountAll (ht : (Node.empty.insertAll [] routes).outcome = .ok tree) :
    ∀ (mounts : List (List Segment)) {n m : Node V} {t : Table V},
      (∀ mount ∈ mounts, ∀ s ∈ mount, s.isPlain = true) → Holds n t →
      (n.mountAll routes tree mounts).outcome = .ok m →
      Holds m (t ++ (rowsAt routes mounts).map cutRoute)
  | [], _, _, t, _, hn, h => by
    cases h
    rw [rowsAt, List.flatMap_nil, List.map_nil, List.append_nil]
    exact hn
  | mount :: mounts, n, m, t, hp, hn, h => by
    rw [outcome_mountAll_cons] at h
    obtain ⟨next, hm, h⟩ := Attempt.ok_of_bind h
    have hnext := hn.mounted ht (hp mount List.mem_cons_self) hm
    have ih := Holds.mountAll ht mounts (fun x hx => hp x (List.mem_cons_of_mem mount hx)) hnext h
    have hrows : rowsAt routes (mount :: mounts) = rowsAt routes [mount] ++ rowsAt routes mounts := by
      rw [rowsAt, rowsAt, rowsAt, List.flatMap_cons, List.flatMap_singleton]
    rw [hrows, List.map_append, ← List.append_assoc]
    exact ih

/-! ## 5. The order of the children -/

theorem Canonical.graft (ht : Canonical tree) : ∀ {mount : List Segment} {n m : Node V} {shared : Bool},
    (∀ s ∈ mount, s.isPlain = true) → Canonical n → n.graft tree mount = .ok (m, shared) → Canonical m
  | [], n, m, shared, _, hn, h => by
    rw [Node.graft] at h
    split at h <;> cases h
    · exact hn
    · exact ht
  | s :: rest, n, m, shared, hp, hn, h => by
    have hs : s.key ≠ .catchAll :=
      Segment.key_ne_catchAll (Segment.not_isCatchAll_of_isPlain (hp s List.mem_cons_self))
    have hrest : ∀ x ∈ rest, x.isPlain = true := fun x hx => hp x (List.mem_cons_of_mem s hx)
    have put : ∀ {below : Node V}, Canonical below → Canonical (n.put s below) := fun hb => by
      rw [Node.put, namedBy_eq_renamed]
      exact hn.setChild (hb.of_edges rfl) fun hk => absurd hk hs
    rcases graft_cases h with ⟨-, -, below, flag, hg, rfl⟩
        | ⟨child, hc, -, ⟨below, hg, rfl⟩ | ⟨-, -, -, rfl⟩⟩
    · exact put (Canonical.graft ht hrest canonical_empty hg)
    · have hchild : Canonical (child.adopt s) :=
        (hn.child hc).of_edges (by rw [adopt_eq_renamed]; rfl)
      exact hn.setChild (Canonical.graft ht hrest hchild hg) fun hk => absurd hk hs
    · exact put ht

theorem Canonical.mounted {n m : Node V} (hn : Canonical n)
    (ht : (Node.empty.insertAll [] routes).outcome = .ok tree) (hp : ∀ s ∈ mount, s.isPlain = true)
    (h : n.mounted tree routes mount = .ok m) : Canonical m := by
  obtain ⟨⟨below, shared⟩, hg, h⟩ := Attempt.ok_of_bind h
  have hb := Canonical.graft (canonical_empty.insertAll ht) hp hn hg
  cases shared with
  | true =>
    cases h
    exact hb
  | false =>
    exact insertAll_keeps (fun _ _ _ _ hcut hx hm => Canonical.extend hcut hx hm) mount routes h hb

theorem Canonical.mountAll (ht : (Node.empty.insertAll [] routes).outcome = .ok tree)
    {mounts : List (List Segment)} {n m : Node V}
    (hp : ∀ mount ∈ mounts, ∀ s ∈ mount, s.isPlain = true) (hn : Canonical n)
    (h : (n.mountAll routes tree mounts).outcome = .ok m) : Canonical m :=
  mountAll_keeps (fun mount hmem _ _ hm hx => hx.mounted ht (hp mount hmem) hm) h hn

end

end Node

end RouteTree
