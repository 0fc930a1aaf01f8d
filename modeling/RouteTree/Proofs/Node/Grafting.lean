import RouteTree.Proofs.Node.Holding

/-!
# When a graft is done, and trees that stand for maps

A graft asks two things: whether the names along its path fit, and whether the end of the path is free.

* `graft_flag` says that nothing else decides: a graft fails exactly where the check of the names does,
  with the same error, and otherwise it is done exactly if the end is free;
* `Proper` says that the list of children of each node is a map, as all operations on trees leave it:
  `Proper.extend` and `Proper.graft` are the steps, for paths and mounts of every kind.
-/

namespace RouteTree.Node

open Segment (keysOf)

variable {V : Type}

/-! ## 1. When a graft is done -/

/-- Nothing is at the end of a path: there is no node, or it has no value and nothing below it. -/
def isFree (n : Node V) (path : List Segment) : Bool :=
  (n.at? (keysOf path)).all fun last => !last.isUsed

theorem isFree_of_none {n : Node V} {s : Segment} (h : n.child? s.key = none)
    (rest : List Segment) : n.isFree (s :: rest) = true := by
  rw [isFree, Segment.keysOf_cons, at?_cons, h]
  rfl

theorem isFree_of_child {n child : Node V} {s : Segment} (h : n.child? s.key = some child)
    (rest : List Segment) : n.isFree (s :: rest) = child.isFree rest := by
  rw [isFree, Segment.keysOf_cons, at?_cons, h]
  rfl

theorem isFree_adopt (n : Node V) (s : Segment) (path : List Segment) :
    (n.adopt s).isFree path = n.isFree path := by
  unfold isFree
  cases hk : keysOf path with
  | nil =>
    show (!(n.adopt s).isUsed) = !n.isUsed
    rw [isUsed_adopt]
  | cons k K => rw [adopt_eq_renamed, at?_renamed]

/-- **What decides a graft.** It fails exactly where the check of the names along its path fails, and
    otherwise it is done exactly if the end of the path is free. -/
theorem graft_flag (tree : Node V) : ∀ (path : List Segment) (n : Node V),
    (n.graft tree path).map Prod.snd = (n.checkNames path).map fun _ => n.isFree path
  | [], n => by
    have hfree : n.isFree [] = !n.isUsed := rfl
    rw [graft, checkNames, hfree]
    cases n.isUsed <;> rfl
  | s :: rest, n => by
    rw [graft_cons, checkNames]
    cases hc : n.child? s.key with
    | none =>
      rw [isFree_of_none hc]
      have ih := graft_flag tree rest empty
      rw [checkNames_empty] at ih
      obtain ⟨g, hg, -⟩ := Attempt.ok_of_map ih
      show ((empty.graft tree rest).map _).map Prod.snd = _
      rw [hg]
      rfl
    | some child =>
      dsimp only
      rw [isFree_of_child hc]
      cases hk : child.checkName s with
      | error e => rfl
      | ok _ =>
        have hnames : (child.adopt s).checkNames rest = child.checkNames rest :=
          checkNames_of_edges (by rw [adopt_eq_renamed]; rfl) rest
        have ih := graft_flag tree rest (child.adopt s)
        rw [isFree_adopt, hnames] at ih
        show Except.map Prod.snd (if rest = [] ∧ child.isUsed = false then _ else _)
          = (child.checkNames rest).map fun _ => child.isFree rest
        by_cases hend : rest = [] ∧ child.isUsed = false
        · obtain ⟨rfl, hu⟩ := hend
          have hfree : child.isFree [] = true := congrArg (!·) hu
          rw [if_pos ⟨rfl, hu⟩, hfree]
          rfl
        · rw [if_neg hend, ← ih]
          cases (child.adopt s).graft tree rest <;> rfl

/-- A graft that is not refused with an error is done exactly if the end of its path is free. -/
theorem isFree_of_graft {n tree m : Node V} {path : List Segment} {shared : Bool}
    (h : n.graft tree path = .ok (m, shared)) : n.isFree path = shared := by
  have hflag := graft_flag tree path n
  rw [h] at hflag
  obtain ⟨_, -, he⟩ := Attempt.ok_of_map hflag.symm
  exact he

/-! ## 2. Trees whose children are maps -/

/-- The children of each node stand for a map: they are in the order of their keys, each key once, and a
    node that is its own catch-all child has no other one. -/
structure Proper (n : Node V) : Prop where
  order : ∀ K m, n.at? K = some m → Assoc.Sorted m.edges
  loops : ∀ K m, n.at? K = some m → m.loops = true → m.child? .catchAll = none

/-- Where a child is filed, another one in its place ends no loop. -/
theorem Proper.loops_setChild {n child : Node V} {k : Key} (hn : Proper n)
    (hc : n.child? k = some child) (other : Node V) : (n.setChild k other).loops = n.loops := by
  show (n.loops && decide (k ≠ .catchAll)) = n.loops
  cases hl : n.loops with
  | false => rfl
  | true =>
    have hne : k ≠ .catchAll := by
      rintro rfl
      rw [hn.loops [] n rfl hl] at hc
      cases hc
    rw [decide_eq_true hne]
    rfl

/-- To file a child under its key again changes nothing. -/
theorem Proper.setChild_self {n child : Node V} {k : Key} (hn : Proper n)
    (hc : n.child? k = some child) : n.setChild k child = n := by
  have hs := hn.order [] n rfl
  refine ext_fields rfl rfl (hn.loops_setChild hc child) ?_
  refine Assoc.ext_sorted (Assoc.sorted_insert k child hs) hs fun j => ?_
  by_cases hj : j = k
  · rw [hj]
    exact (child?_setChild_self n child k).trans hc.symm
  · exact child?_setChild_of_ne hj n child

theorem proper_leaf {n : Node V} (h : n.edges = []) : Proper n where
  order K m hm := by
    cases K with
    | nil =>
      cases hm
      rw [h]
      exact .nil
    | cons k K =>
      rw [at?_of_edges (m := empty) h] at hm
      cases hm
  loops K m hm _ := by
    cases K with
    | nil =>
      cases hm
      rw [child?, h]
      rfl
    | cons k K =>
      rw [at?_of_edges (m := empty) h] at hm
      cases hm

/-- Values and names take no part in it. -/
theorem Proper.of_fields {n m : Node V} (h : Proper n) (he : n.edges = m.edges)
    (hl : n.loops = m.loops) : Proper m where
  order K a ha := by
    cases K with
    | nil =>
      cases ha
      exact he ▸ h.order [] n rfl
    | cons k K => exact h.order _ a ((at?_of_edges he k K).trans ha)
  loops K a ha hloop := by
    cases K with
    | nil =>
      cases ha
      rw [child?, ← he]
      exact h.loops [] n rfl (hl.trans hloop)
    | cons k K => exact h.loops _ a ((at?_of_edges he k K).trans ha) hloop

theorem Proper.child {n child : Node V} {k : Key} (h : Proper n) (hc : n.child? k = some child) :
    Proper child := by
  have hat : ∀ K, n.at? (k :: K) = child.at? K := fun K => by rw [at?_cons, hc]; rfl
  exact ⟨fun K m hm => h.order (k :: K) m ((hat K).trans hm),
    fun K m hm => h.loops (k :: K) m ((hat K).trans hm)⟩

theorem Proper.renamed {n : Node V} (h : Proper n) (name : Option String) :
    Proper (n.renamed name) :=
  h.of_fields rfl rfl

theorem Proper.adopt {n : Node V} (h : Proper n) (s : Segment) : Proper (n.adopt s) := by
  rw [adopt_eq_renamed]
  exact h.renamed _

theorem Proper.fillFor {n : Node V} (h : Proper n) (s : Segment) (v : V) :
    Proper (Node.fillFor s v n) :=
  h.of_fields (fillFor_edges s v n).symm (fillFor_loops s v n).symm

/-- **One step below a root.** A catch-all child ends the loop of its parent. -/
theorem Proper.setChild {n child : Node V} (hn : Proper n) (hc : Proper child) (k : Key) :
    Proper (n.setChild k child) where
  order K m hm := by
    cases K with
    | nil =>
      cases hm
      exact Assoc.sorted_insert k child (hn.order [] n rfl)
    | cons j K =>
      rw [at?_setChild] at hm
      split at hm
      · exact hc.order K m hm
      · exact hn.order _ m hm
  loops K m hm hloop := by
    cases K with
    | nil =>
      cases hm
      have hboth : (n.loops && decide (k ≠ .catchAll)) = true := hloop
      rw [Bool.and_eq_true, decide_eq_true_eq] at hboth
      rw [child?_setChild_of_ne (Ne.symm hboth.2)]
      exact hn.loops [] n rfl hboth.1
    | cons j K =>
      rw [at?_setChild] at hm
      split at hm
      · exact hc.loops K m hm hloop
      · exact hn.loops _ m hm hloop

theorem Proper.put {n child : Node V} (hn : Proper n) (hc : Proper child) (s : Segment) :
    Proper (n.put s child) := by
  rw [Node.put, namedBy_eq_renamed]
  exact hn.setChild (hc.renamed _) s.key

/-! ## 3. What operations keep -/

theorem Proper.fresh {below : Node V} (h : Proper below) (s : Segment) (v : V) :
    Proper (Node.fresh s v below) := by
  unfold Node.fresh
  split
  · exact proper_leaf rfl
  · split
    · exact h.of_fields rfl rfl
    · exact h

theorem proper_build (v : V) : ∀ path : List Segment, Proper (build v path)
  | [] => proper_leaf rfl
  | s :: rest => by
    have hput : Proper (empty.put s (Node.fresh s v (build v rest))) :=
      (proper_leaf rfl).put ((proper_build v rest).fresh s v) s
    rw [build]
    split
    · exact hput.of_fields rfl rfl
    · exact hput

/-- **An insertion leaves maps.** -/
theorem Proper.extend {v : V} : ∀ {path : List Segment} {n n' : Node V},
    n.extend v path = .ok n' → Proper n → Proper n'
  | [], n, n', h, hn => by
    cases h
    exact hn.of_fields rfl rfl
  | s :: rest, n, n', h, hn => by
    rcases extend_steps h with ⟨-, rfl⟩ | ⟨child, below, hc, -, hx, rfl⟩
    · exact (hn.put ((proper_build v rest).fresh s v) s).fillFor s v
    · have hbelow : Proper below := Proper.extend hx ((hn.child hc).adopt s)
      exact (hn.setChild (hbelow.fillFor s v) s.key).fillFor s v

/-- **A graft leaves maps**, whatever its path is. -/
theorem Proper.graft {tree : Node V} (ht : Proper tree) : ∀ {path : List Segment} {n m : Node V}
    {shared : Bool}, n.graft tree path = .ok (m, shared) → Proper n → Proper m
  | [], n, m, shared, h, hn => by
    rw [Node.graft] at h
    split at h <;> cases h
    · exact hn
    · exact ht
  | s :: rest, n, m, shared, h, hn => by
    rcases graft_cases h with ⟨-, -, below, flag, hg, rfl⟩
        | ⟨child, hc, -, ⟨below, hg, rfl⟩ | ⟨-, -, -, rfl⟩⟩
    · exact hn.put (Proper.graft ht hg (proper_leaf rfl)) s
    · exact hn.setChild (Proper.graft ht hg ((hn.child hc).adopt s)) s.key
    · exact hn.put ht s

section
variable {tree : Node V} {routes : List (Route V)} {n m : Node V}

theorem Proper.insertAll {mount : List Segment} (hn : Proper n)
    (h : (n.insertAll mount routes).outcome = .ok m) : Proper m :=
  insertAll_keeps (fun _ _ _ _ _ hx => Proper.extend hx) mount routes h hn

theorem Proper.mountAll (ht : (Node.empty.insertAll [] routes).outcome = .ok tree)
    {mounts : List (List Segment)} (hn : Proper n)
    (h : (n.mountAll routes tree mounts).outcome = .ok m) : Proper m := by
  have htree : Proper tree := Proper.insertAll (proper_leaf rfl) ht
  refine mountAll_keeps (fun mount _ x y hm hx => ?_) h hn
  obtain ⟨⟨below, shared⟩, hg, hm⟩ := Attempt.ok_of_bind hm
  have hbelow := htree.graft hg hx
  cases shared with
  | true =>
    cases hm
    exact hbelow
  | false => exact hbelow.insertAll hm

end

end RouteTree.Node
