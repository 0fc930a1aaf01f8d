import RouteTree.Proofs.Node.Mounting

/-!
# What stays in a tree

Routes are only ever added to a tree. This file says what that means for the nodes that are there:

* `Outlasts` is what may become of one node: it stays in use, and then keeps its name. A node that is
  not in use, which only an empty set of routes leaves behind, may lose its name to a graft;
* `Kept` says it of every node of a tree, at the same keys as before. `kept_setChild` is the one step
  below a root; from it `kept_of_extend` and `kept_of_graft` are proved along the path, and
  `kept_of_mountAll` for whole sets of routes;
* `Carries` is what a mount leaves behind: its keys are there, and the templates in front of its last
  segment have named their nodes.
-/

namespace RouteTree.Node

open Segment (keysOf)

variable {V : Type}

/-! ## 1. What may become of a node -/

/-- If the first node is in use, so is the second, under the name that the first has. -/
def Outlasts (n n' : Node V) : Prop :=
  n.isUsed = true → n'.isUsed = true ∧ ∀ a, n.name = some a → n'.name = some a

/-- Every node of the first tree is still there in the second. -/
def Kept (n n' : Node V) : Prop :=
  ∀ K m, n.at? K = some m → ∃ m', n'.at? K = some m' ∧ Outlasts m m'

theorem Outlasts.refl (n : Node V) : Outlasts n n := fun h => ⟨h, fun _ ha => ha⟩

theorem Outlasts.trans {n m k : Node V} (h : Outlasts n m) (h' : Outlasts m k) : Outlasts n k :=
  fun hu => ⟨(h' (h hu).1).1, fun a ha => (h' (h hu).1).2 a ((h hu).2 a ha)⟩

theorem Kept.refl (n : Node V) : Kept n n := fun _ m h => ⟨m, h, Outlasts.refl m⟩

theorem Kept.trans {n m k : Node V} (h : Kept n m) (h' : Kept m k) : Kept n k := by
  intro K x hx
  obtain ⟨y, hy, hxy⟩ := h K x hx
  obtain ⟨z, hz, hyz⟩ := h' K y hy
  exact ⟨z, hz, hxy.trans hyz⟩

theorem hasChildren_of_child? {n child : Node V} {k : Key} (h : n.child? k = some child) :
    n.hasChildren = true := by
  cases he : n.edges with
  | nil => simp [child?, he] at h
  | cons e rest => simp [hasChildren, he]

theorem isUsed_of_child? {n child : Node V} {k : Key} (h : n.child? k = some child) :
    n.isUsed = true := by
  rw [isUsed, hasChildren_of_child? h, Bool.or_true]

/-- What is done to a node itself keeps what is below it. -/
theorem kept_of_edges {n m : Node V} (he : n.edges = m.edges) (ho : Outlasts n m) : Kept n m := by
  intro K x hx
  cases K with
  | nil =>
    cases hx
    exact ⟨m, rfl, ho⟩
  | cons k K =>
    rw [at?_of_edges he] at hx
    exact ⟨x, hx, Outlasts.refl x⟩

theorem kept_setValue (n : Node V) (v : V) : Kept n (n.setValue v) :=
  kept_of_edges rfl fun _ => ⟨rfl, fun _ ha => ha⟩

theorem kept_adopt (n : Node V) (s : Segment) : Kept n (n.adopt s) := by
  refine kept_of_edges (by rw [adopt_eq_renamed]; rfl) fun hu => ⟨by rw [isUsed_adopt, hu], ?_⟩
  intro a ha
  rw [adopt_eq_renamed, renamed, ha]
  rfl

theorem kept_fillFor (s : Segment) (v : V) (n : Node V) : Kept n (fillFor s v n) := by
  refine kept_of_edges (by simp) fun hu => ⟨?_, fun a ha => by rw [fillFor_name, ha]⟩
  simp only [isUsed, hasChildren, fillFor_value, fillFor_loops, fillFor_edges, Bool.or_eq_true]
    at hu ⊢
  refine hu.imp (fun hv => ?_) id
  split <;> simp [hv]

/-- **One step below a root.** A tree is kept if the child that is put into it keeps the one in whose
    place it comes. -/
theorem kept_setChild {n child' : Node V} {k : Key}
    (h : ∀ child, n.child? k = some child → Kept child child') : Kept n (n.setChild k child') := by
  intro K m hm
  cases K with
  | nil =>
    cases hm
    exact ⟨_, rfl, fun _ => ⟨isUsed_of_child? (child?_setChild_self n child' k), fun _ ha => ha⟩⟩
  | cons j K =>
    rw [at?_setChild]
    by_cases hj : j = k
    · rw [hj, at?_cons] at hm
      obtain ⟨child, hc, hm⟩ := Option.bind_eq_some_iff.mp hm
      rw [if_pos hj]
      exact h child hc K m hm
    · rw [if_neg hj]
      exact ⟨m, hm, Outlasts.refl m⟩

/-- A node that is not in use has nothing to keep. -/
theorem kept_of_unused {n : Node V} (h : n.isUsed = false) (m : Node V) : Kept n m := by
  intro K x hx
  cases K with
  | nil =>
    cases hx
    refine ⟨m, rfl, fun hu => ?_⟩
    rw [h] at hu
    cases hu
  | cons k K =>
    rw [at?_cons] at hx
    obtain ⟨child, hc, -⟩ := Option.bind_eq_some_iff.mp hx
    rw [isUsed_of_child? hc] at h
    cases h

/-! ## 2. What insertions and grafts keep -/

theorem kept_of_extend {v : V} : ∀ {path : List Segment} {n n' : Node V},
    n.extend v path = .ok n' → Kept n n'
  | [], n, n', h => by
    cases h
    exact kept_setValue n v
  | s :: rest, n, n', h => by
    rcases extend_steps h with ⟨hc, rfl⟩ | ⟨child, below, hc, -, hx, rfl⟩
    · refine (kept_setChild fun child h => ?_).trans (kept_fillFor s v _)
      rw [hc] at h
      cases h
    · refine (kept_setChild fun c h => ?_).trans (kept_fillFor s v _)
      obtain rfl : child = c := Option.some.inj (hc.symm.trans h)
      exact ((kept_adopt child s).trans (kept_of_extend hx)).trans (kept_fillFor s v below)

theorem kept_of_graft {tree : Node V} : ∀ {mount : List Segment} {n m : Node V} {shared : Bool},
    n.graft tree mount = .ok (m, shared) → Kept n m
  | [], n, m, shared, h => by
    rw [graft] at h
    cases hu : n.isUsed with
    | true =>
      rw [hu] at h
      cases h
      exact Kept.refl n
    | false => exact kept_of_unused hu m
  | s :: rest, n, m, shared, h => by
    rcases graft_cases h with ⟨hc, -, below, flag, -, rfl⟩
        | ⟨child, hc, -, ⟨below, hg, rfl⟩ | ⟨-, hu, -, rfl⟩⟩
    · refine kept_setChild fun child h => ?_
      rw [hc] at h
      cases h
    · refine kept_setChild fun c h => ?_
      obtain rfl : child = c := Option.some.inj (hc.symm.trans h)
      exact (kept_adopt child s).trans (kept_of_graft hg)
    · refine kept_setChild fun c h => ?_
      obtain rfl : child = c := Option.some.inj (hc.symm.trans h)
      exact kept_of_unused hu _

theorem kept_of_insertAll {mount : List Segment} {routes : List (Route V)} {n n' : Node V}
    (h : (n.insertAll mount routes).outcome = .ok n') : Kept n n' :=
  insertAll_keeps (P := Kept n) (fun _ _ _ _ _ hx hk => hk.trans (kept_of_extend hx)) mount routes h
    (Kept.refl n)

/-! ## 3. What a mount leaves behind -/

/-- The keys of the path are there, and each of its templates that another segment follows has named
    the node that it leads to. -/
def Carries (n : Node V) : List Segment → Prop
  | [] => True
  | s :: rest => ∃ child, n.child? s.key = some child ∧
      (rest ≠ [] → ∀ t, s = .param t → child.name = some t.name) ∧ child.Carries rest

theorem Carries.of_edges {n m : Node V} (he : n.edges = m.edges) {path : List Segment}
    (h : n.Carries path) : m.Carries path := by
  cases path with
  | nil => trivial
  | cons s rest =>
    obtain ⟨child, hc, hrest⟩ := h
    refine ⟨child, ?_, hrest⟩
    rw [child?, ← he]
    exact hc

/-- A node in front of another one is in use, so it keeps its name. -/
theorem Carries.kept : ∀ {path : List Segment} {n n' : Node V}, n.Carries path → Kept n n' →
    n'.Carries path
  | [], _, _, _, _ => trivial
  | s :: rest, n, n', ⟨child, hc, hname, hrest⟩, hk => by
    have hat : ∀ K, n.at? (s.key :: K) = child.at? K := fun K => by
      rw [at?_cons, hc]
      rfl
    obtain ⟨child', hc', ho⟩ := hk [s.key] child (hat [])
    have hchild' : n'.child? s.key = some child' := by
      rw [at?_cons] at hc'
      obtain ⟨c, hcc, h⟩ := Option.bind_eq_some_iff.mp hc'
      cases h
      exact hcc
    have hbelow : Kept child child' := fun K m hm => by
      obtain ⟨m', hm', hmm⟩ := hk (s.key :: K) m ((hat K).trans hm)
      rw [at?_cons, hchild'] at hm'
      exact ⟨m', hm', hmm⟩
    refine ⟨child', hchild', fun hne t ht => ?_, hrest.kept hbelow⟩
    cases rest with
    | nil => exact absurd rfl hne
    | cons next rest =>
      obtain ⟨below, hb, -⟩ := hrest
      exact (ho (isUsed_of_child? hb)).2 _ (hname hne t ht)

theorem adopt_name_of_checkName {n : Node V} {t : Template}
    (h : n.checkName (.param t) = .ok ()) : (n.adopt (.param t)).name = some t.name := by
  rw [adopt_eq_renamed]
  unfold checkName at h
  cases hn : n.name with
  | none => rfl
  | some existing =>
    simp only [Segment.template?, hn] at h
    split at h
    · rename_i he
      exact congrArg some he
    · cases h

theorem carries_of_graft {tree : Node V} : ∀ {mount : List Segment} {n m : Node V} {shared : Bool},
    n.graft tree mount = .ok (m, shared) → m.Carries mount
  | [], _, _, _, _ => trivial
  | s :: rest, n, m, shared, h => by
    rcases graft_cases h with ⟨-, -, below, flag, hg, rfl⟩
        | ⟨child, -, hk, ⟨below, hg, rfl⟩ | ⟨rfl, -, -, rfl⟩⟩
    · refine ⟨below.namedBy s, child?_setChild_self n _ s.key, ?_, ?_⟩
      · rintro - t rfl
        rw [namedBy_eq_renamed]
        rfl
      · refine (carries_of_graft hg).of_edges ?_
        rw [namedBy_eq_renamed]
        rfl
    · refine ⟨below, child?_setChild_self n below s.key, ?_, carries_of_graft hg⟩
      rintro hne t rfl
      cases rest with
      | nil => exact absurd rfl hne
      | cons next rest => rw [graft_name hg, adopt_name_of_checkName hk]
    · exact ⟨_, child?_setChild_self n _ s.key, fun hne => absurd rfl hne, trivial⟩

section
variable {tree : Node V} {routes : List (Route V)}

theorem kept_of_mounted {mount : List Segment} {n m : Node V}
    (h : n.mounted tree routes mount = .ok m) : Kept n m ∧ m.Carries mount := by
  obtain ⟨⟨below, shared⟩, hg, h⟩ := Attempt.ok_of_bind h
  cases shared with
  | true =>
    cases h
    exact ⟨kept_of_graft hg, carries_of_graft hg⟩
  | false =>
    have hk := kept_of_insertAll h
    exact ⟨(kept_of_graft hg).trans hk, (carries_of_graft hg).kept hk⟩

/-- **What mounting a set of routes keeps, and what it leaves behind**, whatever its mounts are. -/
theorem kept_of_mountAll : ∀ {mounts : List (List Segment)} {n m : Node V},
    (n.mountAll routes tree mounts).outcome = .ok m →
    Kept n m ∧ ∀ mount ∈ mounts, m.Carries mount
  | [], n, m, h => by
    cases h
    exact ⟨Kept.refl n, fun _ hm => nomatch hm⟩
  | mount :: mounts, n, m, h => by
    rw [outcome_mountAll_cons] at h
    obtain ⟨next, hn, h⟩ := Attempt.ok_of_bind h
    obtain ⟨hk, hc⟩ := kept_of_mounted hn
    obtain ⟨hk', hrest⟩ := kept_of_mountAll h
    refine ⟨hk.trans hk', fun x hx => ?_⟩
    rcases List.mem_cons.mp hx with rfl | hx
    · exact hc.kept hk'
    · exact hrest x hx

end

end RouteTree.Node
