import Mathlib.Data.Nat.Find
import RouteTree.Proofs.Node.View
import RouteTree.Proofs.Table

/-!
# How a tree grows

A tree `Shows` a table if the end of every sequence of keys holds what the table says about these
keys. This file proves that the empty tree shows the empty table and that an insertion adds its route
at the end of the table:

* `extend_cases` says all that an extension by one segment can do;
* `Grown` is what an extension does to the view along the keys, and `grown_of_extend` proves it by
  recursion along the path;
* `checkNames_error_iff` says where a path is refused: at its first clash with a name in the tree;
* `Shows.extend` is the step, `Shows.empty` the start.
-/

namespace RouteTree

/-! ## 1. Paths that are cut -/

namespace Segment

/-- Nothing follows a catch-all. -/
def IsCut (path : List Segment) : Prop := Node.cutAfterCatchAll path = path

theorem isCut_nil : IsCut [] := rfl

theorem IsCut.tail {s : Segment} {rest : List Segment} (h : IsCut (s :: rest)) : IsCut rest := by
  unfold IsCut Node.cutAfterCatchAll at h
  split at h
  · obtain ⟨-, rfl⟩ := List.cons.inj h
    exact isCut_nil
  · exact (List.cons.inj h).2

theorem IsCut.rest_eq_nil {s : Segment} {rest : List Segment} (h : IsCut (s :: rest))
    (hs : s.isCatchAll = true) : rest = [] := by
  unfold IsCut Node.cutAfterCatchAll at h
  rw [if_pos hs] at h
  exact (List.cons.inj h).2.symm

theorem isCut_cut : ∀ path : List Segment, IsCut (Node.cutAfterCatchAll path)
  | [] => rfl
  | s :: rest => by
    unfold Node.cutAfterCatchAll
    by_cases hs : s.isCatchAll = true
    · rw [if_pos hs, IsCut, Node.cutAfterCatchAll, if_pos hs]
    · rw [if_neg hs, IsCut, Node.cutAfterCatchAll, if_neg hs, isCut_cut rest]

theorem key_of_isCatchAll {s : Segment} (hs : s.isCatchAll = true) : s.key = .catchAll := by
  cases s with
  | param t =>
    have ht : t.isCatchAll = true := hs
    simp [key, Template.key, ht]
  | literal _ => cases hs
  | reserved _ => cases hs
  | tag _ => cases hs

theorem key_ne_catchAll {s : Segment} (hs : s.isCatchAll = false) : s.key ≠ .catchAll := by
  cases s with
  | param t =>
    have ht : t.isCatchAll = false := hs
    cases hf : t.fixed <;> simp [key, Template.key, ht, hf]
  | literal _ => simp [key]
  | reserved _ => simp [key]
  | tag _ => simp [key]

theorem not_isOptional_of_isCatchAll {s : Segment} (hs : s.isCatchAll = true) :
    s.isOptional = false := by
  cases s with
  | param t =>
    have ht : t.modifier = some .catchAll := by simpa [isCatchAll, Template.isCatchAll] using hs
    simp [isOptional, Template.isOptional, ht]
  | literal _ => rfl
  | reserved _ => rfl
  | tag _ => rfl

end Segment

namespace Node

open Segment (keysOf fillsAt bindsAt IsCut)

variable {V : Type}

/-! ## 2. One segment -/

/-- The end of a catch-all in a tree that had `old` there. -/
structure EndsCatchAll (n : Node V) (s : Segment) (v : V) (child : Node V) : Prop where
  value : child.value = some v
  name : child.name = (n.slot s).name.or (nameOf s)
  edges : child.edges = (n.slot s).edges

/-- **What extending by one segment can do.** A catch-all ends the path, and its child takes the
    value. Any other segment leads to a slot that is extended by the rest of the path. -/
theorem extend_cases {n n' : Node V} {v : V} {s : Segment} {rest : List Segment}
    (hcut : IsCut (s :: rest)) (h : n.extend v (s :: rest) = .ok n') :
    (s.isCatchAll = true ∧ rest = [] ∧
      ∃ child, EndsCatchAll n s v child ∧ n' = n.setChild s.key child) ∨
    (s.isCatchAll = false ∧ ∃ below, ((n.slot s).adopt s).extend v rest = .ok below ∧
      n' = fillFor s v (n.setChild s.key (fillFor s v below))) := by
  cases hs : s.isCatchAll with
  | true =>
    refine Or.inl ⟨rfl, hcut.rest_eq_nil hs, ?_⟩
    have ho := Segment.not_isOptional_of_isCatchAll hs
    obtain rfl := hcut.rest_eq_nil hs
    rcases extend_steps h with ⟨hc, rfl⟩ | ⟨child, below, hc, -, hx, rfl⟩
    · refine ⟨(looping v).namedBy s, ⟨?_, ?_, ?_⟩, ?_⟩
      · rw [namedBy_eq_renamed]; rfl
      · rw [namedBy_eq_renamed, slot_of_none hc]
        simp [renamed, looping, empty]
      · rw [namedBy_eq_renamed, slot_of_none hc]; rfl
      · simp [fillFor, ho, attach, put, fresh, hs]
    · cases hx
      refine ⟨(child.adopt s).setValue v, ⟨rfl, ?_, ?_⟩, by simp [fillFor, ho]⟩
      · rw [adopt_eq_renamed, slot_of_child hc]; rfl
      · rw [adopt_eq_renamed, slot_of_child hc]; rfl
  | false =>
    refine Or.inr ⟨rfl, ?_⟩
    rw [extend_cons hs] at h
    obtain ⟨-, -, h⟩ := Attempt.ok_of_bind h
    obtain ⟨below, hb, rfl⟩ := Attempt.ok_of_map h
    exact ⟨below, hb, rfl⟩

/-! ## 3. The whole path -/

/-- What an extension of `n` by a path makes of it, seen along the keys. -/
structure Grown (n : Node V) (path : List Segment) (v : V) (n' : Node V) : Prop where
  present : ∀ K, (n'.at? K).isSome = ((n.at? K).isSome || K.isPrefixOf (keysOf path))
  value : ∀ K, (n'.at? K).bind Node.value =
    if keysOf path = K then some v
    else if fillsAt path K then ((n.at? K).bind Node.value).or (some v)
    else (n.at? K).bind Node.value
  name : ∀ K, (n'.at? K).bind Node.name = ((n.at? K).bind Node.name).or (bindsAt path K)

theorem grown_nil (n : Node V) (v : V) : Grown n [] v (n.setValue v) := by
  have below : ∀ k K, (n.setValue v).at? (k :: K) = n.at? (k :: K) := at?_of_edges rfl
  refine ⟨fun K => ?_, fun K => ?_, fun K => ?_⟩ <;> cases K with
  | nil => simp [setValue]
  | cons k K => rw [below]; simp [fillsAt]

section
variable {n below : Node V} {v : V} {s : Segment} {rest : List Segment}

/-- Below its first key a slot that is extended shows what it showed in the tree. -/
theorem at?_adopt_slot (n : Node V) (s : Segment) (k : Key) (K : List Key) :
    ((n.slot s).adopt s).at? (k :: K) = n.at? (s.key :: k :: K) := by
  rw [adopt_eq_renamed, ← at?_slot]
  exact at?_of_edges rfl k K

/-- The tree after an extension by one segment, below its root. -/
theorem at?_extended (n below : Node V) (v : V) (s : Segment) (j : Key) (K : List Key) :
    (fillFor s v (n.setChild s.key (fillFor s v below))).at? (j :: K)
      = if j = s.key then (fillFor s v below).at? K else n.at? (j :: K) := by
  rw [at?_of_edges (fillFor_edges s v _), at?_setChild]

theorem at?_fillFor (s : Segment) (v : V) (m : Node V) (k : Key) (K : List Key) :
    (fillFor s v m).at? (k :: K) = m.at? (k :: K) :=
  at?_of_edges (fillFor_edges s v m) k K

theorem grown_cons_present (h : Grown ((n.slot s).adopt s) rest v below) (K : List Key) :
    ((fillFor s v (n.setChild s.key (fillFor s v below))).at? K).isSome
      = ((n.at? K).isSome || K.isPrefixOf (keysOf (s :: rest))) := by
  cases K with
  | nil => rfl
  | cons j K =>
    rw [at?_extended]
    by_cases hj : j = s.key
    · rw [if_pos hj, hj]
      cases K with
      | nil => simp
      | cons k K =>
        rw [at?_fillFor, h.present, at?_adopt_slot]
        simp
    · rw [if_neg hj]
      simp [hj]

theorem grown_cons_value (h : Grown ((n.slot s).adopt s) rest v below) (K : List Key) :
    ((fillFor s v (n.setChild s.key (fillFor s v below))).at? K).bind Node.value
      = if keysOf (s :: rest) = K then some v
        else if fillsAt (s :: rest) K then ((n.at? K).bind Node.value).or (some v)
        else (n.at? K).bind Node.value := by
  cases K with
  | nil =>
    show (fillFor s v (n.setChild s.key _)).value = _
    rw [fillFor_value]
    simp [fillsAt, setChild]
  | cons j K =>
    rw [at?_extended]
    by_cases hj : j = s.key
    · rw [if_pos hj, hj]
      cases K with
      | nil =>
        have hb : below.value = _ := h.value []
        have hs : ((n.slot s).adopt s).value = (n.at? [s.key]).bind Node.value := by
          rw [adopt_eq_renamed]
          exact bind_slot Node.value rfl n s
        rw [at?_nil, Option.bind_some, hs] at hb
        show (fillFor s v below).value = _
        rw [fillFor_value, hb]
        cases rest with
        | nil => cases s.isOptional <;> simp
        | cons r rest =>
          cases hs' : s.isOptional <;> cases hr : r.isOptional <;> simp [fillsAt, hs', hr]
      | cons k K =>
        rw [at?_fillFor, h.value, at?_adopt_slot]
        simp [fillsAt]
    · rw [if_neg hj]
      simp [fillsAt, hj, Ne.symm hj]

theorem grown_cons_name (h : Grown ((n.slot s).adopt s) rest v below) (K : List Key) :
    ((fillFor s v (n.setChild s.key (fillFor s v below))).at? K).bind Node.name
      = ((n.at? K).bind Node.name).or (bindsAt (s :: rest) K) := by
  cases K with
  | nil =>
    show (fillFor s v (n.setChild s.key _)).name = _
    simp [setChild]
  | cons j K =>
    rw [at?_extended]
    by_cases hj : j = s.key
    · rw [if_pos hj, hj]
      cases K with
      | nil =>
        have hb : below.name = _ := h.name []
        have hs : (n.slot s).name = (n.at? [s.key]).bind Node.name := bind_slot Node.name rfl n s
        show (fillFor s v below).name = _
        rw [fillFor_name, hb, Segment.bindsAt_nil, Segment.bindsAt_single, if_pos rfl, ← hs,
          adopt_eq_renamed]
        simp [renamed, nameOf]
      | cons k K =>
        rw [at?_fillFor, h.name, at?_adopt_slot, Segment.bindsAt_cons, if_pos rfl]
    · rw [if_neg hj, Segment.bindsAt_of_ne hj, Option.or_none]

end

/-- The end of a catch-all is a slot that has grown by the empty path. -/
theorem grown_endsCatchAll {n child : Node V} {v : V} {s : Segment}
    (h : EndsCatchAll n s v child) : Grown ((n.slot s).adopt s) [] v child := by
  have below : ∀ k K, child.at? (k :: K) = ((n.slot s).adopt s).at? (k :: K) :=
    at?_of_edges (by rw [h.edges, adopt_eq_renamed]; rfl)
  refine ⟨fun K => ?_, fun K => ?_, fun K => ?_⟩ <;> cases K with
  | nil => simp [h.value, h.name, adopt_eq_renamed, renamed]
  | cons k K => rw [below]; simp [fillsAt]

/-- **What an extension does to the view along the keys.** -/
theorem grown_of_extend {v : V} : ∀ {path : List Segment} {n n' : Node V}, IsCut path →
    n.extend v path = .ok n' → Grown n path v n'
  | [], n, n', _, h => by
    cases h
    exact grown_nil n v
  | s :: rest, n, n', hcut, h => by
    rcases extend_cases hcut h with ⟨hs, rfl, child, hc, rfl⟩ | ⟨hs, below, hb, rfl⟩
    · have ho := Segment.not_isOptional_of_isCatchAll hs
      have hf : ∀ m : Node V, fillFor s v m = m := fun m => by simp [fillFor, ho]
      have hg := grown_endsCatchAll hc
      have he : n.setChild s.key child = fillFor s v (n.setChild s.key (fillFor s v child)) := by
        rw [hf, hf]
      rw [he]
      exact ⟨grown_cons_present hg, grown_cons_value hg, grown_cons_name hg⟩
    · have hg := grown_of_extend hcut.tail hb
      exact ⟨grown_cons_present hg, grown_cons_value hg, grown_cons_name hg⟩

/-! ## 4. Names that clash -/

/-- At position `j` the path has a name for a node that already has another one. -/
def Clash (n : Node V) (path : List Segment) (j : Nat) (existing requested : String) : Prop :=
  ∃ t, path[j]? = some (.param t) ∧ t.name = requested ∧
    (n.at? (keysOf (path.take (j + 1)))).bind Node.name = some existing ∧ existing ≠ requested

theorem clash_zero (n : Node V) (s : Segment) (rest : List Segment) (a b : String) :
    Clash n (s :: rest) 0 a b ↔ (n.slot s).checkName s = .error (.nameConflict a b) := by
  have hn : (n.at? [s.key]).bind Node.name = (n.slot s).name := (bind_slot Node.name rfl n s).symm
  have hc : Clash n (s :: rest) 0 a b ↔ ∃ t, s = .param t ∧ t.name = b ∧
      (n.slot s).name = some a ∧ a ≠ b := by
    simp [Clash, hn]
  rw [hc, checkName]
  constructor
  · rintro ⟨t, rfl, rfl, hs, hab⟩
    simp [Segment.template?, hs, hab]
  · intro h
    split at h
    · rename_i t existing ht he
      split at h
      · cases h
      · rename_i hne
        cases h
        cases s with
        | param u => cases ht; exact ⟨t, rfl, rfl, he, hne⟩
        | literal _ => cases ht
        | reserved _ => cases ht
        | tag _ => cases ht
    · cases h

theorem clash_succ (n : Node V) (s : Segment) (rest : List Segment) (j : Nat) (a b : String) :
    Clash n (s :: rest) (j + 1) a b ↔ Clash (n.slot s) rest j a b := by
  have hn : ∀ t, rest[j]? = some (.param t) →
      n.at? (keysOf ((s :: rest).take (j + 1 + 1)))
        = (n.slot s).at? (keysOf (rest.take (j + 1))) := by
    intro t ht
    cases rest with
    | nil => simp at ht
    | cons r rest => exact (at?_slot n s _ _).symm
  constructor
  · rintro ⟨t, ht, hb, ha, hab⟩
    exact ⟨t, ht, hb, by rw [← hn t ht]; exact ha, hab⟩
  · rintro ⟨t, ht, hb, ha, hab⟩
    exact ⟨t, ht, hb, by rw [hn t ht]; exact ha, hab⟩

theorem checkName_error {n : Node V} {s : Segment} {e : RouteError} (h : n.checkName s = .error e) :
    ∃ a b, e = .nameConflict a b := by
  unfold checkName at h
  split at h
  · split at h
    · cases h
    · cases h
      exact ⟨_, _, rfl⟩
  · cases h

/-- **The check of the names refuses a path exactly at its first clash.** -/
theorem checkNames_error_iff (e : RouteError) : ∀ (path : List Segment) (n : Node V),
    n.checkNames path = .error e ↔ ∃ j a b, e = .nameConflict a b ∧ Clash n path j a b ∧
      ∀ i < j, ∀ a b, ¬ Clash n path i a b
  | [], n => by simp [checkNames, Clash]
  | s :: rest, n => by
    rw [checkNames_cons]
    cases hc : (n.slot s).checkName s with
    | error f =>
      obtain ⟨a, b, rfl⟩ := checkName_error hc
      have h0 : Clash n (s :: rest) 0 a b := (clash_zero n s rest a b).mpr hc
      constructor
      · intro h
        cases h
        exact ⟨0, a, b, rfl, h0, fun i hi => absurd hi (Nat.not_lt_zero i)⟩
      · rintro ⟨j, a', b', rfl, hj, hmin⟩
        cases j with
        | zero =>
          rw [clash_zero, hc] at hj
          exact hj
        | succ j => exact absurd h0 (hmin 0 (Nat.succ_pos j) a b)
    | ok _ =>
      have h0 : ∀ a b, ¬ Clash n (s :: rest) 0 a b := by
        intro a b h
        rw [clash_zero, hc] at h
        cases h
      show (n.slot s).checkNames rest = .error e ↔ _
      rw [checkNames_error_iff e rest (n.slot s)]
      constructor
      · rintro ⟨j, a, b, rfl, hj, hmin⟩
        refine ⟨j + 1, a, b, rfl, (clash_succ n s rest j a b).mpr hj, fun i hi a b hcl => ?_⟩
        cases i with
        | zero => exact h0 a b hcl
        | succ i => exact hmin i (by omega) a b ((clash_succ n s rest i a b).mp hcl)
      · rintro ⟨j, a, b, rfl, hj, hmin⟩
        cases j with
        | zero => exact absurd hj (h0 a b)
        | succ j =>
          refine ⟨j, a, b, rfl, (clash_succ n s rest j a b).mp hj, fun i hi a b hcl => ?_⟩
          exact hmin (i + 1) (by omega) a b ((clash_succ n s rest i a b).mpr hcl)

theorem refused_of_clash {n : Node V} {path : List Segment} {j : Nat} {a b : String}
    (h : Clash n path j a b) : ∃ c d, n.checkNames path = .error (.nameConflict c d) := by
  classical
  have hclash : ∃ j a b, Clash n path j a b := ⟨j, a, b, h⟩
  obtain ⟨c, d, hfirst⟩ := Nat.find_spec hclash
  refine ⟨c, d, (checkNames_error_iff _ path n).mpr ⟨_, c, d, rfl, hfirst, fun k hk e f hc => ?_⟩⟩
  exact Nat.find_min hclash hk ⟨e, f, hc⟩

/-- A path that can be inserted has no other name for a node than the node has. -/
theorem name_eq_of_extend {n n' : Node V} {v : V} {path : List Segment} {K : List Key}
    {a b : String} (h : n.extend v path = .ok n') (ha : (n.at? K).bind Node.name = some a)
    (hb : bindsAt path K = some b) : a = b := by
  have hok : n.checkNames path = .ok () := by rw [← extend_outcome n v path, h]; rfl
  refine Classical.byContradiction fun hab => ?_
  obtain ⟨front, t, back, rfl, ht, rfl⟩ := (Segment.bindsAt_iff path b K).mp hb
  have htake : (front ++ .param t :: back).take (front.length + 1) = front ++ [.param t] := by
    rw [List.take_length_add_append]
    rfl
  have hcl : Clash n (front ++ .param t :: back) front.length a b :=
    ⟨t, by simp, ht, by rw [htake]; exact ha, hab⟩
  obtain ⟨c, d, herr⟩ := refused_of_clash hcl
  rw [hok] at herr
  cases herr

/-! ## 5. Trees and tables -/

/-- A node that is its own catch-all child is at the end of a catch-all. -/
def LoopsAtEnds (n : Node V) : Prop :=
  ∀ K m, n.at? K = some m → m.loops = true → K.getLast? = some .catchAll

theorem LoopsAtEnds.root {n : Node V} (h : LoopsAtEnds n) : n.loops = false :=
  Bool.eq_false_iff.mpr fun hl => nomatch h [] n rfl hl

/-- A tree has its loops at ends if its root does not loop and the trees below it have theirs
    there. -/
theorem loopsAtEnds_of_cons {n : Node V} (hroot : n.loops = false)
    (h : ∀ k K m, n.at? (k :: K) = some m → m.loops = true → (k :: K).getLast? = some .catchAll) :
    LoopsAtEnds n := by
  intro K m hm hl
  cases K with
  | nil =>
    cases hm
    rw [hroot] at hl
    cases hl
  | cons k K => exact h k K m hm hl

theorem LoopsAtEnds.slot {n : Node V} (h : LoopsAtEnds n) {s : Segment}
    (hs : s.isCatchAll = false) : LoopsAtEnds ((n.slot s).adopt s) := by
  refine loopsAtEnds_of_cons ?_ fun k K m hm hl => ?_
  · rw [adopt_eq_renamed]
    show (n.slot s).loops = false
    cases hc : n.child? s.key with
    | none => rw [slot_of_none hc]; rfl
    | some child =>
      rw [slot_of_child hc]
      refine Bool.eq_false_iff.mpr fun hl => Segment.key_ne_catchAll hs ?_
      simpa using h [s.key] child (by rw [at?_cons, hc]; rfl) hl
  · rw [at?_adopt_slot] at hm
    simpa using h _ m hm hl

theorem LoopsAtEnds.extend {v : V} : ∀ {path : List Segment} {n n' : Node V}, IsCut path →
    n.extend v path = .ok n' → LoopsAtEnds n → LoopsAtEnds n'
  | [], n, n', _, h, hl => by
    cases h
    refine loopsAtEnds_of_cons hl.root fun k K m hm => hl _ m ?_
    rw [← hm]
    exact at?_of_edges rfl k K
  | s :: rest, n, n', hcut, h, hl => by
    have hroot := hl.root
    rcases extend_cases hcut h with ⟨hs, rfl, child, hc, rfl⟩ | ⟨hs, below, hb, rfl⟩
    · refine loopsAtEnds_of_cons (by simp [setChild, hroot]) fun j K m hm hloop => ?_
      rw [at?_setChild] at hm
      by_cases hj : j = s.key
      · rw [if_pos hj] at hm
        cases K with
        | nil => simp [hj, Segment.key_of_isCatchAll hs]
        | cons k K =>
          refine hl _ m ?_ hloop
          rw [hj, ← at?_slot, ← hm]
          exact (at?_of_edges hc.edges k K).symm
      · rw [if_neg hj] at hm
        exact hl _ m hm hloop
    · have ih := LoopsAtEnds.extend hcut.tail hb (hl.slot hs)
      refine loopsAtEnds_of_cons (by simp [setChild, hroot]) fun j K m hm hloop => ?_
      rw [at?_extended] at hm
      by_cases hj : j = s.key
      · rw [if_pos hj] at hm
        cases K with
        | nil =>
          cases hm
          rw [fillFor_loops, ih.root] at hloop
          cases hloop
        | cons k K =>
          rw [at?_fillFor] at hm
          simpa using ih _ m hm hloop
      · rw [if_neg hj] at hm
        exact hl _ m hm hloop

/-- **A tree shows a table**: there is a node at the end of some keys exactly if a route passes them,
    with the value the table has there and the name its routes have for it. -/
structure Shows (n : Node V) (t : Table V) : Prop where
  present : ∀ K, (n.at? K).isSome = (decide (K = []) || t.passes K)
  value : ∀ K, (n.at? K).bind Node.value = t.value K
  name : ∀ K a, (n.at? K).bind Node.name = some a ↔ t.names K a
  loops : LoopsAtEnds n

theorem Shows.empty : Shows (empty : Node V) [] where
  present K := by cases K <;> rfl
  value K := by cases K <;> rfl
  name K a := by
    cases K with
    | nil => simp [Table.names, Node.empty]
    | cons k K => simp [Table.names]
  loops := loopsAtEnds_of_cons rfl fun _ _ _ h => nomatch h

/-- **Inserting a route adds it to the table that the tree shows.** -/
theorem Shows.extend {n n' : Node V} {t : Table V} (hn : Shows n t) {v : V} {path : List Segment}
    (hcut : IsCut path) (h : n.extend v path = .ok n') : Shows n' (t ++ [(path, v)]) where
  present K := by
    rw [(grown_of_extend hcut h).present, hn.present, Table.passes_append, Table.passes_single,
      Bool.or_assoc]
  value K := by rw [(grown_of_extend hcut h).value, hn.value, Table.value_snoc]
  name K a := by
    rw [(grown_of_extend hcut h).name, Table.names_snoc, ← hn.name]
    cases hold : (n.at? K).bind Node.name with
    | none => simp
    | some old =>
      simp only [Option.some_or, Option.some.injEq]
      refine ⟨Or.inl, fun ha => ha.elim id fun hb => ?_⟩
      exact name_eq_of_extend h hold hb
  loops := hn.loops.extend hcut h

end Node

end RouteTree
