import RouteTree.Proofs.Node.Growth
import RouteTree.Router.Mount

/-!
# Mounting a subtree

Grafting the tree of some routes and inserting the routes one by one are two different programs. This
file proves that they build the same tree, as long as each segment of the mount stands for exactly one
component:

* `insertAll_cons` goes down by one such segment with all routes at once, where the insertions go down
  once for each;
* `graft_cases` says all that a graft below the root can do;
* `mounted_eq_insertAll` compares the two by recursion along the mount;
* `Fruitful` is what it needs of the tree: every branch leads to a value. A branch without any value
  is taken for free by a graft, with the name it may have. Every insertion and every graft of a tree
  that has a value keeps this.
-/

namespace RouteTree

/-! ## 1. Insertions in a row -/

namespace Segment

/-- The segment stands for exactly one component. -/
def isPlain (s : Segment) : Bool := !s.isOptional && !s.isCatchAll

theorem not_isOptional_of_isPlain {s : Segment} (h : s.isPlain = true) : s.isOptional = false := by
  simp only [isPlain, Bool.and_eq_true, Bool.not_eq_true'] at h
  exact h.1

theorem not_isCatchAll_of_isPlain {s : Segment} (h : s.isPlain = true) : s.isCatchAll = false := by
  simp only [isPlain, Bool.and_eq_true, Bool.not_eq_true'] at h
  exact h.2

end Segment

namespace Node

open Segment (keysOf IsCut isCut_cut)

variable {V : Type}

theorem cut_cons {s : Segment} (hs : s.isCatchAll = false) (rest : List Segment) :
    cutAfterCatchAll (s :: rest) = s :: cutAfterCatchAll rest := by
  simp [cutAfterCatchAll, hs]

theorem cut_append : ∀ {front : List Segment} (rest : List Segment),
    (∀ s ∈ front, s.isPlain = true) →
    cutAfterCatchAll (front ++ rest) = front ++ cutAfterCatchAll rest
  | [], _, _ => rfl
  | s :: front, rest, h => by
    have hs := Segment.not_isCatchAll_of_isPlain (h s List.mem_cons_self)
    rw [List.cons_append, cut_cons hs,
      cut_append rest fun x hx => h x (List.mem_cons_of_mem s hx)]
    rfl

theorem outcome_insertAll_cons (n : Node V) (mount p : List Segment) (v : V)
    (routes : List (Route V)) :
    (n.insertAll mount ((p, v) :: routes)).outcome
      = (n.extend v (cutAfterCatchAll (mount ++ p))).bind fun m =>
          (m.insertAll mount routes).outcome := by
  rw [insertAll, Attempt.outcome_bind, Changed.outcome_attempt, outcome_insert]

theorem outcome_insertAll_single (n : Node V) (p : List Segment) (v : V) :
    (n.insertAll [] [(p, v)]).outcome = n.extend v (cutAfterCatchAll p) := by
  rw [outcome_insertAll_cons, List.nil_append]
  cases n.extend v (cutAfterCatchAll p) <;> rfl

/-- What every extension keeps, a row of insertions keeps. -/
theorem insertAll_keeps {P : Node V → Prop}
    (step : ∀ n n' v path, IsCut path → n.extend v path = .ok n' → P n → P n')
    (mount : List Segment) : ∀ (routes : List (Route V)) {n n' : Node V},
      (n.insertAll mount routes).outcome = .ok n' → P n → P n'
  | [], _, _, h, hn => by
    cases h
    exact hn
  | (p, v) :: routes, n, n', h, hn => by
    rw [outcome_insertAll_cons] at h
    obtain ⟨m, hx, h⟩ := Attempt.ok_of_bind h
    exact insertAll_keeps step mount routes h (step n m v _ (isCut_cut _) hx hn)

/-- The name of the root takes no part in insertions. -/
theorem insertAll_renamed (mount : List Segment) (name : Option String) :
    ∀ (routes : List (Route V)) (n : Node V),
      ((n.renamed name).insertAll mount routes).outcome
        = (n.insertAll mount routes).outcome.map fun m => m.renamed name
  | [], _ => rfl
  | (p, v) :: routes, n => by
    rw [outcome_insertAll_cons, outcome_insertAll_cons, extend_renamed]
    cases n.extend v (cutAfterCatchAll (mount ++ p)) with
    | error e => rfl
    | ok m => exact insertAll_renamed mount name routes m

theorem name_of_extend {n n' : Node V} {v : V} {path : List Segment} (hcut : IsCut path)
    (h : n.extend v path = .ok n') : n'.name = n.name := by
  simpa using (grown_of_extend hcut h).name []

/-! ## 2. All routes down one segment -/

/-- The node goes by the name that the segment has for it. -/
structure Adopted (n : Node V) (s : Segment) : Prop where
  check : n.checkName s = .ok ()
  adopt : n.adopt s = n

theorem adopted_adopt {n : Node V} {s : Segment} (h : n.checkName s = .ok ()) :
    Adopted (n.adopt s) s :=
  ⟨checkName_adopt h, adopt_adopt n s⟩

theorem Adopted.of_name {n m : Node V} {s : Segment} (h : Adopted n s) (hm : m.name = n.name) :
    Adopted m s where
  check := by
    have hc := h.check
    unfold checkName at hc ⊢
    rw [hm]
    exact hc
  adopt := by
    have ha := congrArg Node.name h.adopt
    rw [adopt_eq_renamed] at ha ⊢
    refine ext_fields rfl ?_ rfl rfl
    rw [hm]
    exact ha

/-- Extending along a segment that stands for exactly one component changes its slot only. -/
theorem extend_plain {s : Segment} (hs : s.isPlain = true) (n : Node V) (v : V)
    (rest : List Segment) :
    n.extend v (s :: rest) = ((n.slot s).checkName s).bind fun _ =>
      (((n.slot s).adopt s).extend v rest).map fun below => n.setChild s.key below := by
  have hf : ∀ m : Node V, fillFor s v m = m := fun m => by
    simp [fillFor, Segment.not_isOptional_of_isPlain hs]
  rw [extend_cons (Segment.not_isCatchAll_of_isPlain hs)]
  simp only [hf]

/-- Insertions behind a segment whose child is already named by it. -/
theorem insertAll_adopted {s : Segment} (hs : s.isPlain = true) (n : Node V)
    (mount : List Segment) : ∀ (routes : List (Route V)) {below : Node V}, Adopted below s →
      ((n.setChild s.key below).insertAll (s :: mount) routes).outcome
        = (below.insertAll mount routes).outcome.map fun m => n.setChild s.key m
  | [], _, _ => rfl
  | (p, v) :: routes, below, hb => by
    rw [outcome_insertAll_cons, outcome_insertAll_cons, List.cons_append,
      cut_cons (Segment.not_isCatchAll_of_isPlain hs), extend_plain hs, slot_setChild, hb.check,
      hb.adopt]
    cases hx : below.extend v (cutAfterCatchAll (mount ++ p)) with
    | error e => rfl
    | ok m =>
      show (((n.setChild s.key below).setChild s.key m).insertAll (s :: mount) routes).outcome = _
      rw [setChild_setChild]
      exact insertAll_adopted hs n mount routes (hb.of_name (name_of_extend (isCut_cut _) hx))

/-- **Insertions behind a segment go down together**: what stands under it is checked and named once,
    and all routes are inserted there. -/
theorem insertAll_cons {s : Segment} (hs : s.isPlain = true) (n : Node V) (mount : List Segment)
    {routes : List (Route V)} (hr : routes ≠ []) :
    (n.insertAll (s :: mount) routes).outcome = ((n.slot s).checkName s).bind fun _ =>
      (((n.slot s).adopt s).insertAll mount routes).outcome.map fun m => n.setChild s.key m := by
  cases routes with
  | nil => exact absurd rfl hr
  | cons r routes =>
    obtain ⟨p, v⟩ := r
    rw [outcome_insertAll_cons, List.cons_append, cut_cons (Segment.not_isCatchAll_of_isPlain hs),
      extend_plain hs]
    cases hc : (n.slot s).checkName s with
    | error e => rfl
    | ok _ =>
      show ((((n.slot s).adopt s).extend v _).map _).bind _ = Except.map _ _
      rw [outcome_insertAll_cons]
      cases hx : ((n.slot s).adopt s).extend v (cutAfterCatchAll (mount ++ p)) with
      | error e => rfl
      | ok m =>
        exact insertAll_adopted hs n mount routes
          ((adopted_adopt hc).of_name (name_of_extend (isCut_cut _) hx))

/-! ## 3. Branches that lead to values -/

/-- There is a value in the tree. -/
def Bears (n : Node V) : Prop := ∃ K, ((n.at? K).bind Node.value).isSome

/-- Every branch of the tree leads to a value. -/
def Fruitful (n : Node V) : Prop := ∀ k K m, n.at? (k :: K) = some m → Bears m

theorem fruitful_empty : Fruitful (empty : Node V) := fun _ _ _ h => nomatch h

theorem at?_renamed (n : Node V) (name : Option String) (k : Key) (K : List Key) :
    (n.renamed name).at? (k :: K) = n.at? (k :: K) := at?_of_edges rfl k K

theorem Fruitful.renamed {n : Node V} (h : Fruitful n) (name : Option String) :
    Fruitful (n.renamed name) := by
  intro k K m hm
  rw [at?_renamed] at hm
  exact h k K m hm

theorem Bears.renamed {n : Node V} (h : Bears n) (name : Option String) :
    Bears (n.renamed name) := by
  obtain ⟨K, hK⟩ := h
  cases K with
  | nil => exact ⟨[], hK⟩
  | cons k K => exact ⟨k :: K, by rw [at?_renamed]; exact hK⟩

theorem Fruitful.child {n child : Node V} (h : Fruitful n) {k : Key} (hc : n.child? k = some child) :
    Fruitful child ∧ Bears child := by
  refine ⟨fun j K m hm => h k (j :: K) m ?_, h k [] child ?_⟩
  · rw [at?_cons, hc]
    exact hm
  · rw [at?_cons, hc]
    rfl

theorem Bears.isUsed {n : Node V} (h : Bears n) : n.isUsed = true := by
  obtain ⟨K, hK⟩ := h
  cases K with
  | nil =>
    have hv : n.value.isSome = true := hK
    simp [Node.isUsed, hv]
  | cons k K =>
    cases he : n.edges with
    | nil => simp [at?_cons, child?, he] at hK
    | cons e rest => simp [Node.isUsed, hasChildren, he]

theorem Fruitful.setChild {n child : Node V} (hn : Fruitful n) (hc : Fruitful child)
    (hb : Bears child) (k : Key) : Fruitful (n.setChild k child) := by
  intro j K m hm
  rw [at?_setChild] at hm
  by_cases hj : j = k
  · rw [if_pos hj] at hm
    cases K with
    | nil => cases hm; exact hb
    | cons i K => exact hc i K m hm
  · rw [if_neg hj] at hm
    exact hn j K m hm

theorem Bears.setChild {child : Node V} (hb : Bears child) (n : Node V) (k : Key) :
    Bears (n.setChild k child) := by
  obtain ⟨K, hK⟩ := hb
  exact ⟨k :: K, by rw [at?_setChild, if_pos rfl]; exact hK⟩

theorem fruitful_put {n child : Node V} (hn : Fruitful n) (hc : Fruitful child) (hb : Bears child)
    (s : Segment) : Fruitful (n.put s child) ∧ Bears (n.put s child) := by
  rw [Node.put, namedBy_eq_renamed]
  have hb' := hb.renamed ((nameOf s).or child.name)
  exact ⟨hn.setChild (hc.renamed _) hb' s.key, hb'.setChild n s.key⟩

theorem Fruitful.adopt {n : Node V} (h : Fruitful n) (s : Segment) : Fruitful (n.adopt s) := by
  rw [adopt_eq_renamed]
  exact h.renamed _

theorem Bears.adopt {n : Node V} (h : Bears n) (s : Segment) : Bears (n.adopt s) := by
  rw [adopt_eq_renamed]
  exact h.renamed _

theorem isUsed_adopt (n : Node V) (s : Segment) : (n.adopt s).isUsed = n.isUsed := by
  rw [adopt_eq_renamed]
  rfl

section
variable {n n' : Node V} {path : List Segment} {v : V}

theorem Grown.value_isSome (h : Grown n path v n') {K : List Key}
    (hK : ((n.at? K).bind Node.value).isSome) : ((n'.at? K).bind Node.value).isSome := by
  rw [h.value]
  split
  · rfl
  · split
    · simp
    · exact hK

theorem Grown.bears (h : Grown n path v n') : Bears n' :=
  ⟨keysOf path, by rw [h.value, if_pos rfl]; rfl⟩

theorem Grown.fruitful (h : Grown n path v n') (hn : Fruitful n) : Fruitful n' := by
  intro k K m hm
  have hp := h.present (k :: K)
  rw [hm, Option.isSome_some, eq_comm, Bool.or_eq_true] at hp
  have below : ∀ L, n'.at? ((k :: K) ++ L) = m.at? L := fun L => by rw [at?_append, hm]; rfl
  rcases hp with hold | hpre
  · -- the node was there, and the value it led to still is
    obtain ⟨old, ho⟩ := Option.isSome_iff_exists.mp hold
    obtain ⟨L, hL⟩ := hn k K old ho
    refine ⟨L, ?_⟩
    rw [← below]
    refine h.value_isSome ?_
    rw [at?_append, ho]
    exact hL
  · -- the node is on the new path, which ends at a value
    obtain ⟨L, hL⟩ := List.isPrefixOf_iff_prefix.mp hpre
    exact ⟨L, by rw [← below, h.value, if_pos hL.symm]; rfl⟩

end

theorem insertAll_fruitful {mount : List Segment} {routes : List (Route V)} {n n' : Node V}
    (h : (n.insertAll mount routes).outcome = .ok n') (hn : Fruitful n) : Fruitful n' :=
  insertAll_keeps (P := Fruitful) (fun _ _ _ _ hcut hx => (grown_of_extend hcut hx).fruitful)
    mount routes h hn

theorem insertAll_name {mount : List Segment} {routes : List (Route V)} {n n' : Node V}
    (h : (n.insertAll mount routes).outcome = .ok n') : n'.name = n.name :=
  insertAll_keeps (P := fun m => m.name = n.name)
    (fun _ _ _ _ hcut hx hm => (name_of_extend hcut hx).trans hm) mount routes h rfl

theorem insertAll_bears {mount : List Segment} {routes : List (Route V)} {n n' : Node V}
    (hr : routes ≠ []) (h : (n.insertAll mount routes).outcome = .ok n') : Bears n' := by
  cases routes with
  | nil => exact absurd rfl hr
  | cons r routes =>
    obtain ⟨p, v⟩ := r
    rw [outcome_insertAll_cons] at h
    obtain ⟨m, hx, h⟩ := Attempt.ok_of_bind h
    exact insertAll_keeps (P := Bears) (fun _ _ _ _ hcut hy _ => (grown_of_extend hcut hy).bears)
      mount routes h (grown_of_extend (isCut_cut _) hx).bears

/-- A graft below the root, one segment at a time. -/
theorem graft_cons (n tree : Node V) (s : Segment) (rest : List Segment) :
    n.graft tree (s :: rest) = match n.child? s.key with
      | none => (empty.graft tree rest).map fun g => (n.put s g.1, true)
      | some child => (child.checkName s).bind fun _ =>
        if rest = [] ∧ child.isUsed = false then .ok (n.put s tree, true)
        else ((child.adopt s).graft tree rest).map fun g => (n.setChild s.key g.1, g.2) := by
  cases rest with
  | nil =>
    conv => lhs; rw [graft]
    cases n.child? s.key with
    | none => rfl
    | some child =>
      dsimp only
      cases child.checkName s with
      | error e => rfl
      | ok _ => cases hu : child.isUsed <;> simp [Except.bind, Except.map, graft, isUsed_adopt, hu]
  | cons next rest =>
    conv => lhs; rw [graft]
    cases n.child? s.key with
    | none =>
      dsimp only
      cases empty.graft tree (next :: rest) <;> rfl
    | some child =>
      dsimp only
      cases child.checkName s with
      | error e => rfl
      | ok _ =>
        simp only [Except.bind, reduceCtorEq, false_and, if_false]
        cases (child.adopt s).graft tree (next :: rest) <;> rfl

/-- **What a graft below the root can do.** Where no child is, it goes on in the empty node. Where the
    name of the child allows it, it goes on in the child; or the path ends there, the child is not in
    use, and the grafted tree takes its place. -/
theorem graft_cases {n tree m : Node V} {s : Segment} {rest : List Segment} {shared : Bool}
    (h : n.graft tree (s :: rest) = .ok (m, shared)) :
    (n.child? s.key = none ∧ shared = true ∧
      ∃ below flag, empty.graft tree rest = .ok (below, flag) ∧ m = n.put s below) ∨
    (∃ child, n.child? s.key = some child ∧ child.checkName s = .ok () ∧
      ((∃ below, (child.adopt s).graft tree rest = .ok (below, shared) ∧
          m = n.setChild s.key below) ∨
        (rest = [] ∧ child.isUsed = false ∧ shared = true ∧ m = n.put s tree))) := by
  rw [graft_cons] at h
  cases hc : n.child? s.key with
  | none =>
    rw [hc] at h
    obtain ⟨⟨below, flag⟩, hg, he⟩ := Attempt.ok_of_map h
    cases he
    exact Or.inl ⟨rfl, rfl, below, flag, hg, rfl⟩
  | some child =>
    rw [hc] at h
    obtain ⟨_, hk, h⟩ := Attempt.ok_of_bind h
    refine Or.inr ⟨child, rfl, hk, ?_⟩
    split at h
    · rename_i hend
      cases h
      exact Or.inr ⟨hend.1, hend.2, rfl, rfl⟩
    · obtain ⟨⟨below, flag⟩, hg, he⟩ := Attempt.ok_of_map h
      cases he
      exact Or.inl ⟨below, hg, rfl⟩

theorem eq_of_refused_nil {n tree m : Node V} (h : n.graft tree [] = .ok (m, false)) : m = n := by
  rw [graft] at h
  split at h <;> cases h
  rfl

/-- A refused graft below the root has gone on in the child that is there. -/
theorem refused_cases {n tree m : Node V} {s : Segment} {rest : List Segment}
    (h : n.graft tree (s :: rest) = .ok (m, false)) :
    ∃ child below, n.child? s.key = some child ∧
      (child.adopt s).graft tree rest = .ok (below, false) ∧ m = n.setChild s.key below := by
  rcases graft_cases h with ⟨-, hf, -⟩ | ⟨child, hc, -, ⟨below, hg, rfl⟩ | ⟨-, -, hf, -⟩⟩
  · cases hf
  · exact ⟨child, below, hc, hg, rfl⟩
  · cases hf

/-- **A graft keeps that every branch leads to a value**, if the grafted tree has one. -/
theorem graft_fruitful {tree : Node V} (ht : Fruitful tree) (hb : Bears tree) :
    ∀ (mount : List Segment) {n m : Node V} {shared : Bool}, Fruitful n →
      n.graft tree mount = .ok (m, shared) → Fruitful m ∧ ((n.isUsed = true → Bears n) → Bears m)
  | [], n, m, shared, hn, h => by
    rw [graft] at h
    cases hu : n.isUsed with
    | true =>
      rw [hu] at h
      cases h
      exact ⟨hn, fun hbears => hbears rfl⟩
    | false =>
      rw [hu] at h
      cases h
      exact ⟨ht, fun _ => hb⟩
  | s :: rest, n, m, shared, hn, h => by
    rcases graft_cases h with ⟨-, -, below, flag, hg, rfl⟩
        | ⟨child, hc, -, ⟨below, hg, rfl⟩ | ⟨-, hu, -⟩⟩
    · -- the empty node is not in use, so the tree below it bears a value
      obtain ⟨hf, hbears⟩ := graft_fruitful ht hb rest fruitful_empty hg
      have hput := fruitful_put hn hf (hbears fun hu => nomatch hu) s
      exact ⟨hput.1, fun _ => hput.2⟩
    · obtain ⟨hcf, hcb⟩ := (hn.child hc).imp (Fruitful.adopt · s) (Bears.adopt · s)
      obtain ⟨hf, hbears⟩ := graft_fruitful ht hb rest hcf hg
      have hb' := hbears fun _ => hcb
      exact ⟨hn.setChild hf hb' s.key, fun _ => hb'.setChild n s.key⟩
    · -- a child leads to a value, so it is in use
      rw [(hn.child hc).2.isUsed] at hu
      cases hu

/-! ## 4. Grafting as inserting -/

/-- The tree that a mount leaves: the graft, and what it did not take inserted one by one. -/
def mounted (n tree : Node V) (routes : List (Route V)) (mount : List Segment) :
    Except RouteError (Node V) :=
  (n.graft tree mount).bind fun g =>
    if g.2 then .ok g.1 else (g.1.insertAll mount routes).outcome

theorem outcome_mountRoutes (n tree : Node V) (routes : List (Route V)) (mount : List Segment) :
    (n.mountRoutes routes tree mount).outcome = n.mounted tree routes mount := by
  unfold mountRoutes mounted
  rw [Attempt.outcome_bind, Attempt.outcome_ofExcept]
  cases n.graft tree mount with
  | error e => rfl
  | ok g =>
    obtain ⟨m, shared⟩ := g
    cases shared with
    | true => rfl
    | false =>
      show Attempt.outcome (m.insertAll mount routes >>= _) = (m.insertAll mount routes).outcome
      rw [Attempt.outcome_bind]
      cases (m.insertAll mount routes).outcome <;> rfl

/-- Where nothing is, a graft takes the tree. -/
theorem graft_empty_shared {tree : Node V} : ∀ {mount : List Segment} {m : Node V} {shared : Bool},
    empty.graft tree mount = .ok (m, shared) → shared = true
  | [], _, _, h => by
    cases h
    rfl
  | s :: rest, _, _, h => by
    rcases graft_cases h with ⟨-, hshared, -⟩ | ⟨child, hc, -⟩
    · exact hshared
    · cases hc

/-- A graft that goes on below the root leaves the root its name. -/
theorem graft_name {tree : Node V} {s : Segment} {rest : List Segment} {n m : Node V} {shared : Bool}
    (h : n.graft tree (s :: rest) = .ok (m, shared)) : m.name = n.name := by
  rcases graft_cases h with ⟨-, -, below, flag, -, rfl⟩
      | ⟨child, -, -, ⟨below, -, rfl⟩ | ⟨-, -, -, rfl⟩⟩
  all_goals rfl

section
variable {tree : Node V} {routes : List (Route V)}

theorem mounted_single {last : Segment} (hs : last.isPlain = true) (hr : routes ≠ [])
    (ht : (empty.insertAll [] routes).outcome = .ok tree) {n : Node V} (hn : Fruitful n) :
    n.mounted tree routes [last] = (n.insertAll [last] routes).outcome := by
  rw [mounted, graft, insertAll_cons hs n [] hr]
  cases hc : n.child? last.key with
  | none =>
    rw [slot_of_none hc, checkName_empty, adopt_eq_renamed]
    show _ = ((empty.renamed _).insertAll [] routes).outcome.map _
    rw [insertAll_renamed, ht]
    refine congrArg Except.ok (congrArg (n.setChild last.key) ?_)
    rw [namedBy_eq_renamed, insertAll_name ht]
    cases nameOf last <;> rfl
  | some child =>
    rw [slot_of_child hc]
    dsimp only
    cases hk : child.checkName last with
    | error e => rfl
    | ok _ =>
      dsimp only
      rw [if_pos (hn.child hc).2.isUsed]
      exact insertAll_adopted hs n [] routes (adopted_adopt hk)

/-- **Mounting is inserting**, below the root: a graft of the tree of the routes, with the routes it
    does not take inserted one by one, leaves what inserting all of them leaves. -/
theorem mounted_cons (hr : routes ≠ []) (ht : (empty.insertAll [] routes).outcome = .ok tree) :
    ∀ (s : Segment) (rest : List Segment) {n : Node V}, (∀ x ∈ s :: rest, x.isPlain = true) →
      Fruitful n → n.mounted tree routes (s :: rest) = (n.insertAll (s :: rest) routes).outcome
  | s, [], n, hp, hn => mounted_single (hp s List.mem_cons_self) hr ht hn
  | s, next :: rest, n, hp, hn => by
    have hs := hp s List.mem_cons_self
    have hrest : ∀ x ∈ next :: rest, x.isPlain = true := fun x hx => hp x (List.mem_cons_of_mem s hx)
    rw [insertAll_cons hs n (next :: rest) hr, mounted, graft]
    cases hc : n.child? s.key with
    | none =>
      have ih := mounted_cons hr ht next rest hrest fruitful_empty
      rw [slot_of_none hc, checkName_empty, adopt_eq_renamed]
      show _ = ((empty.renamed _).insertAll (next :: rest) routes).outcome.map _
      rw [insertAll_renamed, ← ih, mounted]
      cases hg : empty.graft tree (next :: rest) with
      | error e => rfl
      | ok g =>
        obtain ⟨below, shared⟩ := g
        obtain rfl := graft_empty_shared hg
        refine congrArg Except.ok (congrArg (n.setChild s.key) ?_)
        rw [namedBy_eq_renamed, graft_name hg]
        cases nameOf s <;> rfl
    | some child =>
      rw [slot_of_child hc]
      dsimp only
      cases hk : child.checkName s with
      | error e => rfl
      | ok _ =>
        have ih := mounted_cons hr ht next rest hrest ((hn.child hc).1.adopt s)
        show _ = ((child.adopt s).insertAll (next :: rest) routes).outcome.map _
        rw [← ih, mounted]
        dsimp only
        cases hg : (child.adopt s).graft tree (next :: rest) with
        | error e => rfl
        | ok g =>
          obtain ⟨below, shared⟩ := g
          cases shared with
          | true => rfl
          | false =>
            exact insertAll_adopted hs n (next :: rest) routes
              ((adopted_adopt hk).of_name (graft_name hg))

/-- A root that is mounted on takes the tree if there is nothing in it. -/
theorem mounted_nil (ht : (empty.insertAll [] routes).outcome = .ok tree) {n : Node V}
    (hname : n.name = none) : n.mounted tree routes [] = (n.insertAll [] routes).outcome := by
  rw [mounted, graft]
  cases hu : n.isUsed with
  | true => rfl
  | false =>
    have he : n = empty := by
      simp only [isUsed, hasChildren, Bool.or_eq_false_iff, Bool.not_eq_false',
        Option.isSome_eq_false_iff, Option.isNone_iff_eq_none, List.isEmpty_iff] at hu
      exact ext_fields hu.1 hname hu.2.1 hu.2.2
    rw [he, ht]
    rfl

/-- **Mounting is inserting**: under a mount all whose segments stand for exactly one component, a
    graft of the tree of the routes, with the routes it does not take inserted one by one, leaves what
    inserting all of them one by one leaves, and fails where that fails. -/
theorem mounted_eq_insertAll (hr : routes ≠ []) (ht : (empty.insertAll [] routes).outcome = .ok tree)
    {mount : List Segment} (hp : ∀ s ∈ mount, s.isPlain = true) {n : Node V} (hn : Fruitful n)
    (hname : n.name = none) : n.mounted tree routes mount = (n.insertAll mount routes).outcome := by
  cases mount with
  | nil => exact mounted_nil ht hname
  | cons s rest => exact mounted_cons hr ht s rest hp hn

/-- What a mount leaves is a tree whose branches lead to values. -/
theorem mounted_fruitful (hr : routes ≠ []) (ht : (empty.insertAll [] routes).outcome = .ok tree)
    {mount : List Segment} {n m : Node V} (hn : Fruitful n)
    (h : n.mounted tree routes mount = .ok m) : Fruitful m := by
  have htree := insertAll_fruitful ht fruitful_empty
  obtain ⟨⟨below, shared⟩, hg, h⟩ := Attempt.ok_of_bind h
  have hb := (graft_fruitful htree (insertAll_bears hr ht) mount hn hg).1
  cases shared with
  | true => cases h; exact hb
  | false => exact insertAll_fruitful h hb

theorem mounted_name (ht : (empty.insertAll [] routes).outcome = .ok tree) {mount : List Segment}
    {n m : Node V} (hname : n.name = none) (h : n.mounted tree routes mount = .ok m) :
    m.name = none := by
  obtain ⟨⟨below, shared⟩, hg, h⟩ := Attempt.ok_of_bind h
  have hb : below.name = none := by
    cases mount with
    | nil =>
      rw [graft] at hg
      split at hg <;> cases hg
      · exact hname
      · exact insertAll_name ht
    | cons s rest => rw [graft_name hg, hname]
  cases shared with
  | true => cases h; exact hb
  | false => rw [insertAll_name h, hb]

end

/-! ## 5. Several mounts -/

/-- The routes behind each of the mounts, one mount after the other. -/
def rowsAt (routes : List (Route V)) (mounts : List (List Segment)) : List (Route V) :=
  mounts.flatMap fun mount => routes.map fun r => (mount ++ r.1, r.2)

theorem insertAll_behind (mount : List Segment) : ∀ (routes : List (Route V)) (n : Node V),
    (n.insertAll [] (routes.map fun r => (mount ++ r.1, r.2))).outcome
      = (n.insertAll mount routes).outcome
  | [], _ => rfl
  | (p, v) :: routes, n => by
    rw [List.map_cons, outcome_insertAll_cons, outcome_insertAll_cons, List.nil_append]
    cases n.extend v (cutAfterCatchAll (mount ++ p)) with
    | error e => rfl
    | ok m => exact insertAll_behind mount routes m

theorem insertAll_append (mount : List Segment) (later : List (Route V)) :
    ∀ (routes : List (Route V)) (n : Node V),
      (n.insertAll mount (routes ++ later)).outcome
        = (n.insertAll mount routes).outcome.bind fun m => (m.insertAll mount later).outcome
  | [], _ => rfl
  | (p, v) :: routes, n => by
    rw [List.cons_append, outcome_insertAll_cons, outcome_insertAll_cons]
    cases n.extend v (cutAfterCatchAll (mount ++ p)) with
    | error e => rfl
    | ok m => exact insertAll_append mount later routes m

theorem outcome_mountAll_cons (n tree : Node V) (routes : List (Route V)) (mount : List Segment)
    (mounts : List (List Segment)) :
    (n.mountAll routes tree (mount :: mounts)).outcome
      = (n.mounted tree routes mount).bind fun m => (m.mountAll routes tree mounts).outcome := by
  rw [mountAll, Attempt.outcome_bind, outcome_mountRoutes]

/-- What every mount keeps, a row of mounts keeps. -/
theorem mountAll_keeps {P : Node V → Prop} {tree : Node V} {routes : List (Route V)} :
    ∀ {mounts : List (List Segment)} {n m : Node V},
      (∀ mount ∈ mounts, ∀ x y, x.mounted tree routes mount = .ok y → P x → P y) →
      (n.mountAll routes tree mounts).outcome = .ok m → P n → P m
  | [], _, _, _, h, hn => by
    cases h
    exact hn
  | mount :: mounts, n, m, step, h, hn => by
    rw [outcome_mountAll_cons] at h
    obtain ⟨next, hm, h⟩ := Attempt.ok_of_bind h
    exact mountAll_keeps (fun x hx => step x (List.mem_cons_of_mem mount hx)) h
      (step mount List.mem_cons_self n next hm hn)

section
variable {tree : Node V} {routes : List (Route V)}

/-- A tree that may be mounted on: its branches lead to values, and its root has no name. -/
structure Sound (n : Node V) : Prop where
  fruitful : Fruitful n
  name : n.name = none

theorem sound_empty : Sound (empty : Node V) := ⟨fruitful_empty, rfl⟩

theorem Sound.extend {n n' : Node V} {v : V} {path : List Segment} (hn : Sound n)
    (hcut : IsCut path) (h : n.extend v path = .ok n') : Sound n' :=
  ⟨(grown_of_extend hcut h).fruitful hn.fruitful, (name_of_extend hcut h).trans hn.name⟩

theorem Sound.mounted (hr : routes ≠ []) (ht : (Node.empty.insertAll [] routes).outcome = .ok tree)
    {mount : List Segment} {n m : Node V} (hn : Sound n)
    (h : n.mounted tree routes mount = .ok m) : Sound m :=
  ⟨mounted_fruitful hr ht hn.fruitful h, mounted_name ht hn.name h⟩

theorem Sound.mountAll (hr : routes ≠ []) (ht : (Node.empty.insertAll [] routes).outcome = .ok tree)
    {mounts : List (List Segment)} {n m : Node V} (hn : Sound n)
    (h : (n.mountAll routes tree mounts).outcome = .ok m) : Sound m :=
  mountAll_keeps (fun _ _ _ _ hm hx => hx.mounted hr ht hm) h hn

/-- **All mounts at once.** If each segment of each mount stands for exactly one component, mounting
    routes ends as inserting all of them behind all of the mounts does. -/
theorem mountAll_eq_insertAll (hr : routes ≠ [])
    (ht : (Node.empty.insertAll [] routes).outcome = .ok tree) :
    ∀ (mounts : List (List Segment)) {n : Node V}, (∀ mount ∈ mounts, ∀ s ∈ mount, s.isPlain = true) →
      Sound n → (n.mountAll routes tree mounts).outcome
        = (n.insertAll [] (rowsAt routes mounts)).outcome
  | [], _, _, _ => rfl
  | mount :: mounts, n, hp, hn => by
    have hm := mounted_eq_insertAll hr ht (hp mount List.mem_cons_self) hn.fruitful hn.name
    have hrows : rowsAt routes (mount :: mounts)
        = (routes.map fun r => (mount ++ r.1, r.2)) ++ rowsAt routes mounts := List.flatMap_cons
    rw [outcome_mountAll_cons, hm, hrows, insertAll_append, insertAll_behind]
    cases hi : (n.insertAll mount routes).outcome with
    | error e => rfl
    | ok next =>
      rw [hi] at hm
      exact mountAll_eq_insertAll hr ht mounts (fun m h => hp m (List.mem_cons_of_mem mount h))
        (hn.mounted hr ht hm)

end

/-! ## 6. Tables of mounted routes -/

/-- A route as it is inserted. -/
def cutRoute (r : Route V) : Route V := (cutAfterCatchAll r.1, r.2)

/-- A row of insertions adds its routes to the table that the tree shows. -/
theorem Shows.insertAll : ∀ (routes : List (Route V)) {n n' : Node V} {t : Table V}, Shows n t →
    (n.insertAll [] routes).outcome = .ok n' → Shows n' (t ++ routes.map cutRoute)
  | [], _, _, t, hn, h => by
    cases h
    rw [List.map_nil, List.append_nil]
    exact hn
  | (p, v) :: routes, n, n', t, hn, h => by
    rw [outcome_insertAll_cons, List.nil_append] at h
    obtain ⟨m, hx, h⟩ := Attempt.ok_of_bind h
    have ih := Shows.insertAll routes (hn.extend (isCut_cut p) hx) h
    rw [List.append_assoc] at ih
    exact ih

end Node

end RouteTree
