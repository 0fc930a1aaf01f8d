import RouteTree.Node.Graft
import RouteTree.Node.Insert

/-!
# A tree, seen along its keys

Two trees hold the same routes if they hold the same at the end of every sequence of keys. This file
fixes that view and says what each operation on a node does to it:

* `at?` is the node at the end of some keys, and `at?_setChild` the one law that changes it;
* `slot` is the child a segment leads to, the empty node if there is none: an extension that finds no
  child goes on as if it had found the empty one, so that `extend_cons` and `checkNames_cons` need no
  case for a fresh branch;
* `extend_outcome` says that an extension fails exactly where the check of the names fails, and
  `insert_cases` draws the conclusion: an insertion never stops with half of its work done.
-/

namespace RouteTree.Node

variable {V : Type}

/-! ## 1. Fields -/

theorem ext_fields {n m : Node V} (hv : n.value = m.value) (hn : n.name = m.name)
    (hl : n.loops = m.loops) (he : n.edges = m.edges) : n = m := by
  cases n
  cases m
  simp_all

/-- The same node under another name. -/
def renamed (n : Node V) (name : Option String) : Node V := { n with name := name }

/-- The name that a segment has for the node it leads to. -/
def nameOf (s : Segment) : Option String := s.template?.map Template.name

theorem namedBy_eq_renamed (n : Node V) (s : Segment) :
    n.namedBy s = n.renamed ((nameOf s).or n.name) := by
  unfold namedBy nameOf
  cases s.template? with
  | none => exact ext_fields rfl rfl rfl rfl
  | some t => rfl

theorem adopt_eq_renamed (n : Node V) (s : Segment) :
    n.adopt s = n.renamed (n.name.or (nameOf s)) := by
  unfold adopt
  cases h : n.name with
  | none =>
    rw [namedBy_eq_renamed, h]
    simp
  | some name => exact ext_fields rfl h rfl rfl

@[simp] theorem fillValue_value (n : Node V) (v : V) :
    (n.fillValue v).value = n.value.or (some v) := by
  unfold fillValue
  cases h : n.value <;> simp [h, setValue]

@[simp] theorem fillValue_name (n : Node V) (v : V) : (n.fillValue v).name = n.name := by
  unfold fillValue
  cases n.value <;> rfl

@[simp] theorem fillValue_loops (n : Node V) (v : V) : (n.fillValue v).loops = n.loops := by
  unfold fillValue
  cases n.value <;> rfl

@[simp] theorem fillValue_edges (n : Node V) (v : V) : (n.fillValue v).edges = n.edges := by
  unfold fillValue
  cases n.value <;> rfl

theorem fillFor_value (s : Segment) (v : V) (n : Node V) :
    (fillFor s v n).value = if s.isOptional then n.value.or (some v) else n.value := by
  unfold fillFor
  split <;> simp

@[simp] theorem fillFor_name (s : Segment) (v : V) (n : Node V) :
    (fillFor s v n).name = n.name := by
  unfold fillFor
  split <;> simp

@[simp] theorem fillFor_loops (s : Segment) (v : V) (n : Node V) :
    (fillFor s v n).loops = n.loops := by
  unfold fillFor
  split <;> simp

@[simp] theorem fillFor_edges (s : Segment) (v : V) (n : Node V) :
    (fillFor s v n).edges = n.edges := by
  unfold fillFor
  split <;> simp

theorem fillFor_renamed (s : Segment) (v : V) (n : Node V) (name : Option String) :
    fillFor s v (n.renamed name) = (fillFor s v n).renamed name :=
  ext_fields (by simp only [fillFor_value, renamed]) (by simp [renamed]) (by simp [renamed])
    (by simp [renamed])

/-- Of two children filed under one key the later one stays. -/
theorem setChild_setChild (n : Node V) (k : Key) (first second : Node V) :
    (n.setChild k first).setChild k second = n.setChild k second := by
  have h : ∀ m : List (Key × Node V),
      Assoc.insert k second (Assoc.insert k first m) = Assoc.insert k second m := by
    intro m
    induction m with
    | nil => simp [Assoc.insert]
    | cons e rest ih =>
      obtain ⟨j, old⟩ := e
      by_cases hj : k = j
      · subst hj
        simp [Assoc.insert]
      · by_cases hlt : k < j
        · simp [Assoc.insert, hj, hlt]
        · simp [Assoc.insert, hj, hlt, ih]
  refine ext_fields rfl rfl ?_ (h n.edges)
  show ((n.loops && _) && _) = (n.loops && _)
  rw [Bool.and_assoc, Bool.and_self]

/-! ## 2. The node at the end of some keys -/

/-- The node at the end of some keys. -/
def at? (n : Node V) : List Key → Option (Node V)
  | [] => some n
  | k :: K =>
    match n.child? k with
    | none => none
    | some child => child.at? K

@[simp] theorem at?_nil (n : Node V) : n.at? [] = some n := rfl

theorem at?_cons (n : Node V) (k : Key) (K : List Key) :
    n.at? (k :: K) = (n.child? k).bind fun child => child.at? K := by
  rw [at?]
  cases n.child? k <;> rfl

theorem at?_append (n : Node V) : ∀ K L : List Key,
    n.at? (K ++ L) = (n.at? K).bind fun m => m.at? L
  | [], L => rfl
  | k :: K, L => by
    rw [List.cons_append, at?_cons, at?_cons]
    cases n.child? k with
    | none => rfl
    | some child => exact at?_append child K L

/-- What is below a node depends on its edges only. -/
theorem at?_of_edges {n m : Node V} (h : n.edges = m.edges) (k : Key) (K : List Key) :
    n.at? (k :: K) = m.at? (k :: K) := by
  rw [at?_cons, at?_cons, child?, child?, h]

theorem at?_setChild (n child : Node V) (k j : Key) (K : List Key) :
    (n.setChild k child).at? (j :: K) = if j = k then child.at? K else n.at? (j :: K) := by
  rw [at?_cons]
  by_cases h : j = k
  · rw [if_pos h, h, child?_setChild_self]
    rfl
  · rw [if_neg h, child?_setChild_of_ne h, at?_cons]

@[simp] theorem child?_empty (k : Key) : (empty : Node V).child? k = none := rfl

@[simp] theorem at?_empty (k : Key) (K : List Key) : (empty : Node V).at? (k :: K) = none := rfl

/-! ## 3. Slots -/

/-- The child a segment leads to, or the node that a branch for it would start from. -/
def slot (n : Node V) (s : Segment) : Node V := (n.child? s.key).getD empty

theorem slot_of_child {n child : Node V} {s : Segment} (h : n.child? s.key = some child) :
    n.slot s = child := by
  rw [slot, h]
  rfl

theorem slot_of_none {n : Node V} {s : Segment} (h : n.child? s.key = none) :
    n.slot s = empty := by
  rw [slot, h]
  rfl

@[simp] theorem slot_setChild (n child : Node V) (s : Segment) :
    (n.setChild s.key child).slot s = child :=
  slot_of_child (child?_setChild_self n child s.key)

/-- Below the first key, a slot and the tree it is in show the same. -/
theorem at?_slot (n : Node V) (s : Segment) (k : Key) (K : List Key) :
    (n.slot s).at? (k :: K) = n.at? (s.key :: k :: K) := by
  rw [at?_cons n]
  cases h : n.child? s.key with
  | none => rw [slot_of_none h]; rfl
  | some child => rw [slot_of_child h]; rfl

theorem bind_slot {α : Type} (f : Node V → Option α) (hf : f empty = none) (n : Node V)
    (s : Segment) : f (n.slot s) = (n.at? [s.key]).bind f := by
  rw [at?_cons]
  cases h : n.child? s.key with
  | none => rw [slot_of_none h, hf]; rfl
  | some child => rw [slot_of_child h]; rfl

@[simp] theorem checkName_empty (s : Segment) : (empty : Node V).checkName s = .ok () := by
  unfold checkName
  cases s.template? <;> rfl

/-- A node has the name that the segment leading to it has adopted into it. -/
theorem checkName_adopt {n : Node V} {s : Segment} (h : n.checkName s = .ok ()) :
    (n.adopt s).checkName s = .ok () := by
  unfold checkName at h ⊢
  rw [adopt_eq_renamed, nameOf]
  cases hs : s.template? with
  | none => rfl
  | some t =>
    cases hn : n.name with
    | none => simp [renamed]
    | some name =>
      simp only [hs, hn] at h
      simpa [renamed] using h

theorem adopt_adopt (n : Node V) (s : Segment) : (n.adopt s).adopt s = n.adopt s := by
  rw [adopt_eq_renamed, adopt_eq_renamed]
  refine ext_fields rfl ?_ rfl rfl
  cases n.name <;> cases nameOf s <;> rfl

/-! ## 4. Checks along a path -/

theorem checkNames_of_edges {n m : Node V} (h : n.edges = m.edges) (path : List Segment) :
    n.checkNames path = m.checkNames path := by
  cases path with
  | nil => rfl
  | cons s rest => rw [checkNames, checkNames, child?, child?, h]

@[simp] theorem checkNames_empty (path : List Segment) :
    (empty : Node V).checkNames path = .ok () := by
  cases path <;> rfl

theorem checkNames_cons (n : Node V) (s : Segment) (rest : List Segment) :
    n.checkNames (s :: rest)
      = ((n.slot s).checkName s).bind fun _ => (n.slot s).checkNames rest := by
  rw [checkNames]
  cases h : n.child? s.key with
  | none =>
    rw [slot_of_none h, checkName_empty]
    exact (checkNames_empty rest).symm
  | some child =>
    rw [slot_of_child h]
    dsimp only
    cases child.checkName s <;> rfl

/-- **An extension fails exactly where the check of the names does**, with the same error: once the
    names are checked, nothing on the way can be refused any more. -/
theorem extend_outcome (n : Node V) (v : V) : ∀ path : List Segment,
    (n.extend v path).map (fun _ => ()) = n.checkNames path
  | [] => rfl
  | s :: rest => by
    rw [extend_step, checkNames]
    cases n.child? s.key with
    | none => rfl
    | some child =>
      dsimp only
      cases child.checkName s with
      | error e => rfl
      | ok _ =>
        have he : (child.adopt s).checkNames rest = child.checkNames rest :=
          checkNames_of_edges (by rw [adopt_eq_renamed]; rfl) rest
        dsimp only
        rw [← he, ← extend_outcome (child.adopt s) v rest]
        cases (child.adopt s).extend v rest <;> rfl

/-! ## 5. Insertions -/

/-- Once the names are checked, a tree that grows is not stopped. -/
theorem grow_of_checkNames {n : Node V} {path : List Segment} (v : V)
    (h : n.checkNames path = .ok ()) : ∃ n', n.grow v path = .ok n' := by
  rw [← extend_outcome n v path] at h
  obtain ⟨n', hx, -⟩ := Attempt.ok_of_map h
  exact ⟨n', grow_eq_ok_iff.mpr hx⟩

/-- **All that an insertion can do.** A name is refused before anything is changed or logged, or the
    tree has grown by the path. -/
theorem insert_cases (n : Node V) (segments : List Segment) (v : V) :
    (∃ e, n.checkNames (cutAfterCatchAll segments) = .error e ∧
      n.insert segments v = ⟨cutEvents segments, .error ⟨e, n⟩⟩) ∨
    (∃ n', n.checkNames (cutAfterCatchAll segments) = .ok () ∧
      n.extend v (cutAfterCatchAll segments) = .ok n' ∧
      n.insert segments v = ⟨cutEvents segments
        ++ [.routeInserted (Segment.displayAll (cutAfterCatchAll segments))], .ok n'⟩) := by
  unfold insert
  dsimp only
  cases hc : n.checkNames (cutAfterCatchAll segments) with
  | error e => exact Or.inl ⟨e, rfl, rfl⟩
  | ok _ =>
    obtain ⟨n', hg⟩ := grow_of_checkNames v hc
    rw [hg]
    exact Or.inr ⟨n', rfl, grow_eq_ok_iff.mp hg, rfl⟩

/-- **An insertion that is refused leaves the tree as it was.** -/
theorem state_insert_of_refused {n : Node V} {segments : List Segment} {v : V} {e : RouteError}
    (h : (n.insert segments v).outcome = .error e) : (n.insert segments v).state = n := by
  rcases insert_cases n segments v with ⟨_, -, hi⟩ | ⟨n', -, -, hi⟩
  · rw [hi]
    rfl
  · rw [hi] at h
    cases h

/-- An insertion ends as the extension of the tree by the path that is cut. -/
theorem outcome_insert (n : Node V) (segments : List Segment) (v : V) :
    (n.insert segments v).outcome = n.extend v (cutAfterCatchAll segments) := by
  rcases insert_cases n segments v with ⟨e, hc, hi⟩ | ⟨n', -, hx, hi⟩
  · rw [← extend_outcome n v] at hc
    rw [hi]
    cases hx : n.extend v (cutAfterCatchAll segments) with
    | error f =>
      rw [hx] at hc
      cases hc
      rfl
    | ok n' =>
      rw [hx] at hc
      cases hc
  · rw [hi, hx]
    rfl

/-! ## 6. Extensions, one segment at a time -/

/-- **All that an extension by one segment more can do.** Where no child is, it attaches a fresh branch.
    Where the name of the child allows it, it goes on in the child. -/
theorem extend_steps {n n' : Node V} {v : V} {s : Segment} {rest : List Segment}
    (h : n.extend v (s :: rest) = .ok n') :
    (n.child? s.key = none ∧ n' = fillFor s v (n.attach s rest v)) ∨
    (∃ child below, n.child? s.key = some child ∧ child.checkName s = .ok () ∧
      (child.adopt s).extend v rest = .ok below ∧
      n' = fillFor s v (n.setChild s.key (fillFor s v below))) := by
  rw [extend_step] at h
  cases hc : n.child? s.key with
  | none =>
    rw [hc] at h
    cases h
    exact Or.inl ⟨rfl, rfl⟩
  | some child =>
    rw [hc] at h
    dsimp only at h
    cases hk : child.checkName s with
    | error e =>
      rw [hk] at h
      cases h
    | ok _ =>
      rw [hk] at h
      dsimp only at h
      cases hx : (child.adopt s).extend v rest with
      | error e =>
        rw [hx] at h
        cases h
      | ok below =>
        rw [hx] at h
        cases h
        exact Or.inr ⟨child, below, rfl, hk, hx, rfl⟩

/-- The name of a node takes no part in its extension. -/
theorem extend_renamed (n : Node V) (name : Option String) (v : V) (path : List Segment) :
    (n.renamed name).extend v path = (n.extend v path).map fun m => m.renamed name := by
  cases path with
  | nil => rfl
  | cons s rest =>
    rw [extend_step, extend_step]
    have hc : (n.renamed name).child? s.key = n.child? s.key := rfl
    rw [hc]
    cases n.child? s.key with
    | none => exact congrArg Except.ok (fillFor_renamed s v (n.attach s rest v) name)
    | some child =>
      dsimp only
      cases child.checkName s with
      | error e => rfl
      | ok _ =>
        dsimp only
        cases (child.adopt s).extend v rest with
        | error e => rfl
        | ok below => exact congrArg Except.ok (fillFor_renamed s v (n.setChild s.key _) name)

theorem extend_empty (v : V) (path : List Segment) :
    (empty : Node V).extend v path = .ok (build v path) := by
  cases path with
  | nil => rfl
  | cons s rest =>
    rw [extend_step, build]
    refine congrArg Except.ok ?_
    unfold fillFor
    split <;> rfl

/-- A fresh branch holds no other value than the one it is built for. -/
theorem build_value (v : V) (path : List Segment) :
    (build v path).value = none ∨ (build v path).value = some v := by
  cases path with
  | nil => exact Or.inr rfl
  | cons s rest =>
    rw [build]
    by_cases h : s.isOptional
    · exact Or.inr (by simp [h, setValue])
    · exact Or.inl (by simp [h, put, setChild, empty])

theorem build_name (v : V) (path : List Segment) : (build v path).name = none := by
  cases path with
  | nil => rfl
  | cons s rest =>
    rw [build]
    by_cases h : s.isOptional <;> simp [h, setValue, put, setChild, empty]

/-- What a fresh branch puts under a segment that is no catch-all. -/
theorem fresh_eq_fillFor {s : Segment} (hs : s.isCatchAll = false) (v : V) (rest : List Segment) :
    fresh s v (build v rest) = fillFor s v (build v rest) := by
  refine ext_fields ?_ ?_ ?_ ?_ <;> rw [fresh, hs]
  · rw [fillFor_value]
    rcases build_value v rest with hv | hv <;> by_cases ho : s.isOptional <;>
      simp [setValue, hv, ho]
  · rw [fillFor_name]
    by_cases ho : s.isOptional <;> simp [ho, setValue]
  · rw [fillFor_loops]
    by_cases ho : s.isOptional <;> simp [ho, setValue]
  · rw [fillFor_edges]
    by_cases ho : s.isOptional <;> simp [ho, setValue]

/-- **Extending along a segment that is not a catch-all.** What stands under its key is extended, and
    the value is filled in at both ends of the segment if it may be absent. -/
theorem extend_cons {s : Segment} (hs : s.isCatchAll = false) (n : Node V) (v : V)
    (rest : List Segment) :
    n.extend v (s :: rest) = ((n.slot s).checkName s).bind fun _ =>
      (((n.slot s).adopt s).extend v rest).map fun below =>
        fillFor s v (n.setChild s.key (fillFor s v below)) := by
  rw [extend_step]
  cases h : n.child? s.key with
  | none =>
    rw [slot_of_none h, checkName_empty, adopt_eq_renamed, extend_renamed, extend_empty]
    refine congrArg Except.ok (congrArg (fillFor s v) ?_)
    rw [attach, put, namedBy_eq_renamed, fillFor_renamed]
    have hn : (nameOf s).or none = (empty : Node V).name.or (nameOf s) := by
      cases nameOf s <;> rfl
    rw [fresh_eq_fillFor hs, fillFor_name, build_name, hn]
  | some child =>
    rw [slot_of_child h]
    dsimp only
    cases child.checkName s with
    | error e => rfl
    | ok _ =>
      dsimp only
      cases (child.adopt s).extend v rest <;> rfl

end RouteTree.Node
