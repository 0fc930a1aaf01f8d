import RouteTree.Proofs.Node.Mounting

/-!
# One tree for one view

A tree holds its children in the order of their keys, and what is filed under one key is filed once.
So a tree is known from what it shows along its keys:

* `Assoc.ext_sorted` says it of the entries of one node;
* `eq_of_faces` says it of a whole tree, by recursion on it;
* `Canonical` is what insertions keep of that, and `Canonical.extend` is the step;
* `eq_of_shows` draws the conclusion for two trees and the tables they show.
-/

namespace RouteTree

/-! ## 1. The order of keys -/

namespace Key

theorem not_before_self : ∀ a : Key, ¬ a < a
  | exact s, h => String.lt_irrefl s (decide_eq_true_iff.mp h)
  | wild, h => nomatch h
  | catchAll, h => nomatch h
  | tag s, h => String.lt_irrefl s (decide_eq_true_iff.mp h)

theorem before_trans {a b c : Key} (hab : a < b) (hbc : b < c) : a < c := by
  replace hab : before a b = true := hab
  replace hbc : before b c = true := hbc
  show before a c = true
  cases a <;> cases b <;> cases c <;>
    simp only [before, decide_eq_true_eq, Bool.false_eq_true] at hab hbc ⊢
  · exact String.lt_trans hab hbc
  · exact String.lt_trans hab hbc

theorem before_of_not {a b : Key} (hne : a ≠ b) (h : ¬ a < b) : b < a := by
  replace h : ¬ before a b = true := h
  show before b a = true
  have text : ∀ s t : String, s ≠ t → ¬ s < t → t < s := fun s t hst hlt =>
    String.not_le.mp fun hle => hst (String.le_antisymm hle (String.not_lt.mp hlt))
  cases a <;> cases b <;>
    simp only [before, decide_eq_true_eq, Bool.false_eq_true, not_true_eq_false, ne_eq] at hne h ⊢
  · exact text _ _ (fun e => hne (congrArg exact e)) h
  · exact text _ _ (fun e => hne (congrArg tag e)) h

end Key

/-! ## 2. Entries in order -/

namespace Assoc

variable {α : Type}

/-- The keys stand in their order, each once. -/
def Sorted (m : List (Key × α)) : Prop := m.Pairwise fun e f => e.1 < f.1

theorem mem_of_lookup {k : Key} {a : α} : ∀ {m : List (Key × α)}, lookup k m = some a → (k, a) ∈ m
  | (j, b) :: rest, h => by
    rw [lookup_cons] at h
    split at h
    · rename_i hk
      cases h
      rw [hk]
      exact List.mem_cons_self
    · exact List.mem_cons_of_mem _ (mem_of_lookup h)

theorem lookup_of_mem {k : Key} {a : α} : ∀ {m : List (Key × α)}, Sorted m → (k, a) ∈ m →
    lookup k m = some a
  | (j, b) :: rest, hs, h => by
    obtain ⟨hfirst, hrest⟩ := List.pairwise_cons.mp hs
    rw [lookup_cons]
    rcases List.mem_cons.mp h with he | h
    · cases he
      exact if_pos rfl
    · have hne : k ≠ j := fun e => Key.not_before_self j (e ▸ hfirst _ h)
      rw [if_neg hne]
      exact lookup_of_mem hrest h

theorem mem_insert {k : Key} {a : α} {e : Key × α} : ∀ {m : List (Key × α)}, e ∈ insert k a m →
    e = (k, a) ∨ e ∈ m
  | [], h => Or.inl (List.mem_singleton.mp h)
  | (j, b) :: rest, h => by
    rw [insert] at h
    split at h
    · exact (List.mem_cons.mp h).imp id (List.mem_cons_of_mem _)
    · split at h
      · exact List.mem_cons.mp h
      · rcases List.mem_cons.mp h with rfl | h
        · exact Or.inr List.mem_cons_self
        · exact (mem_insert h).imp id (List.mem_cons_of_mem _)

theorem sorted_insert (k : Key) (a : α) : ∀ {m : List (Key × α)}, Sorted m → Sorted (insert k a m)
  | [], _ => List.pairwise_singleton _ _
  | (j, b) :: rest, hs => by
    obtain ⟨hfirst, hrest⟩ := List.pairwise_cons.mp hs
    rw [insert]
    split
    · rename_i hk
      exact List.pairwise_cons.mpr ⟨hk ▸ hfirst, hrest⟩
    · rename_i hk
      split
      · rename_i hlt
        refine List.pairwise_cons.mpr ⟨fun e he => ?_, hs⟩
        rcases List.mem_cons.mp he with rfl | he
        · exact hlt
        · exact Key.before_trans hlt (hfirst e he)
      · rename_i hlt
        refine List.pairwise_cons.mpr ⟨fun e he => ?_, sorted_insert k a hrest⟩
        rcases mem_insert he with rfl | he
        · exact Key.before_of_not hk hlt
        · exact hfirst e he

theorem Sorted.nodup {m : List (Key × α)} (h : Sorted m) : m.Nodup := by
  refine List.Pairwise.imp (fun {e f} hlt => ?_) h
  rintro rfl
  exact Key.not_before_self e.1 hlt

/-- Entries in order are known from their lookups. -/
theorem ext_sorted {m m' : List (Key × α)} (h : Sorted m) (h' : Sorted m')
    (same : ∀ k, lookup k m = lookup k m') : m = m' := by
  have hperm : m.Perm m' := (List.perm_ext_iff_of_nodup h.nodup h'.nodup).mpr fun e =>
    ⟨fun he => mem_of_lookup ((same e.1).symm.trans (lookup_of_mem h he)),
      fun he => mem_of_lookup ((same e.1).trans (lookup_of_mem h' he))⟩
  refine hperm.eq_of_pairwise (fun e f _ _ hef hfe => ?_) h h'
  exact absurd (Key.before_trans hef hfe) (Key.not_before_self e.1)

end Assoc

/-! ## 3. Trees in order -/

namespace Node

open Segment (IsCut)

variable {V : Type}

/-- What a node shows of itself, without its children. -/
def face (n : Node V) : Option V × Option String × Bool := (n.value, n.name, n.loops)

/-- The trees that insertions make: at every node the children stand in the order of their keys, and
    every node at the end of a catch-all loops. -/
structure Canonical (n : Node V) : Prop where
  order : ∀ K m, n.at? K = some m → Assoc.Sorted m.edges
  ends : ∀ K m, n.at? K = some m → K.getLast? = some .catchAll → m.loops = true

theorem Canonical.child {n child : Node V} {k : Key} (h : Canonical n)
    (hc : n.child? k = some child) : Canonical child := by
  have hat : ∀ K, n.at? (k :: K) = child.at? K := fun K => by rw [at?_cons, hc]; rfl
  refine ⟨fun K m hm => h.order (k :: K) m ((hat K).trans hm), fun K m hm hK => ?_⟩
  refine h.ends (k :: K) m ((hat K).trans hm) ?_
  rw [List.getLast?_cons, hK]
  rfl

theorem sizeOf_child {n child : Node V} {k : Key} (h : n.child? k = some child) :
    sizeOf child < sizeOf n := by
  have hmem := List.sizeOf_lt_of_mem (Assoc.mem_of_lookup h)
  cases n
  simp only [Prod.mk.sizeOf_spec, mk.sizeOf_spec] at hmem ⊢
  omega

/-- **A tree in order is known from its nodes**, each without its children. The recursion is on the
    tree: what two trees show below a key is what their children under it show. -/
theorem eq_of_faces (n m : Node V) (hn : Canonical n) (hm : Canonical m)
    (h : ∀ K, (n.at? K).map face = (m.at? K).map face) : n = m := by
  have hroot : face n = face m := Option.some.inj (h [])
  have hchild : ∀ k, n.child? k = m.child? k := fun k => by
    have hk : ∀ K, ((n.child? k).bind fun c => c.at? K).map face
        = ((m.child? k).bind fun c => c.at? K).map face := fun K => by
      rw [← at?_cons, ← at?_cons, h]
    cases hc : n.child? k with
    | none =>
      cases hd : m.child? k with
      | none => rfl
      | some d =>
        have := hk []
        rw [hc, hd] at this
        cases this
    | some c =>
      cases hd : m.child? k with
      | none =>
        have := hk []
        rw [hc, hd] at this
        cases this
      | some d =>
        rw [hc, hd] at hk
        have hlt := sizeOf_child hc
        exact congrArg some (eq_of_faces c d (hn.child hc) (hm.child hd) hk)
  have hedges : n.edges = m.edges :=
    Assoc.ext_sorted (hn.order [] n rfl) (hm.order [] m rfl) hchild
  exact ext_fields (congrArg (·.1) hroot) (congrArg (·.2.1) hroot) (congrArg (·.2.2) hroot) hedges
termination_by sizeOf n

/-! ## 4. What insertions keep -/

theorem canonical_empty : Canonical (empty : Node V) where
  order K m h := by
    cases K with
    | nil =>
      cases h
      exact .nil
    | cons k K => cases h
  ends K m h hK := by
    cases K with
    | nil => cases hK
    | cons k K => cases h

/-- Only what is below a node decides. -/
theorem Canonical.of_edges {n m : Node V} (h : Canonical n) (he : n.edges = m.edges) :
    Canonical m := by
  refine ⟨fun K a ha => ?_, fun K a ha hK => ?_⟩
  · cases K with
    | nil =>
      cases ha
      exact he ▸ h.order [] n rfl
    | cons k K => exact h.order _ a ((at?_of_edges he k K).trans ha)
  · cases K with
    | nil => cases hK
    | cons k K => exact h.ends _ a ((at?_of_edges he k K).trans ha) hK

theorem Canonical.slot {n : Node V} (h : Canonical n) (s : Segment) : Canonical (n.slot s) := by
  cases hc : n.child? s.key with
  | none =>
    rw [slot_of_none hc]
    exact canonical_empty
  | some child =>
    rw [slot_of_child hc]
    exact h.child hc

theorem Canonical.setChild {n child : Node V} {k : Key} (hn : Canonical n) (hc : Canonical child)
    (hl : k = .catchAll → child.loops = true) : Canonical (n.setChild k child) := by
  refine ⟨fun K m hm => ?_, fun K m hm hK => ?_⟩
  · cases K with
    | nil =>
      cases hm
      exact Assoc.sorted_insert k child (hn.order [] n rfl)
    | cons j K =>
      rw [at?_setChild] at hm
      split at hm
      · exact hc.order K m hm
      · exact hn.order _ m hm
  · cases K with
    | nil => cases hK
    | cons j K =>
      rw [at?_setChild] at hm
      split at hm
      · rename_i hj
        cases K with
        | nil =>
          cases hm
          exact hl (hj ▸ Option.some.inj hK)
        | cons i K => exact hc.ends _ m hm (by rwa [List.getLast?_cons_cons] at hK)
      · exact hn.ends _ m hm hK

/-- The end of a catch-all is fresh and loops, or it is the one that was there. -/
theorem loops_of_extend {n n' child : Node V} {v : V} {s : Segment} (hn : Canonical n)
    (hs : s.isCatchAll = true) (h : n.extend v [s] = .ok n') (hc : n'.child? s.key = some child) :
    child.loops = true := by
  have hf : ∀ m : Node V, fillFor s v m = m := fun m => by
    simp [fillFor, Segment.not_isOptional_of_isCatchAll hs]
  rcases extend_steps h with ⟨-, rfl⟩ | ⟨old, below, hold, -, hx, rfl⟩
  · rw [hf, attach, put, child?_setChild_self, fresh, if_pos hs, namedBy_eq_renamed] at hc
    cases hc
    rfl
  · cases hx
    rw [hf, hf, child?_setChild_self, adopt_eq_renamed] at hc
    cases hc
    refine hn.ends [s.key] old ?_ ?_
    · rw [at?_cons, hold]
      rfl
    · rw [Segment.key_of_isCatchAll hs]
      rfl

/-- **An insertion keeps the order and the loops.** -/
theorem Canonical.extend {v : V} : ∀ {path : List Segment} {n n' : Node V}, IsCut path →
    n.extend v path = .ok n' → Canonical n → Canonical n'
  | [], n, n', _, h, hn => by
    cases h
    exact hn.of_edges rfl
  | s :: rest, n, n', hcut, h, hn => by
    rcases extend_cases hcut h with ⟨hs, rfl, child, hc, he⟩ | ⟨hs, below, hb, rfl⟩
    · have hl : child.loops = true :=
        loops_of_extend hn hs h (by rw [he, child?_setChild_self])
      rw [he]
      exact hn.setChild ((hn.slot s).of_edges hc.edges.symm) fun _ => hl
    · have hslot : Canonical ((n.slot s).adopt s) :=
        (hn.slot s).of_edges (by rw [adopt_eq_renamed]; rfl)
      have ih : Canonical below := Canonical.extend hcut.tail hb hslot
      have hset : Canonical (n.setChild s.key (fillFor s v below)) :=
        hn.setChild (ih.of_edges (fillFor_edges s v below).symm)
          fun hk => absurd hk (Segment.key_ne_catchAll hs)
      exact hset.of_edges (fillFor_edges s v _).symm

theorem Canonical.insertAll {routes : List (Route V)} {n n' : Node V} (hn : Canonical n)
    (h : (n.insertAll [] routes).outcome = .ok n') : Canonical n' :=
  insertAll_keeps (fun _ _ _ _ hcut hx hm => hm.extend hcut hx) [] routes h hn

/-! ## 5. Trees that show the same -/

theorem Shows.loops_iff {n m : Node V} {t : Table V} {K : List Key} (h : n.Shows t)
    (hc : Canonical n) (hm : n.at? K = some m) : m.loops = true ↔ K.getLast? = some .catchAll :=
  ⟨h.loops K m hm, hc.ends K m hm⟩

/-- **Trees that show the same table are the same tree.** It is enough that the tables agree along
    every sequence of keys. -/
theorem eq_of_shows {n m : Node V} {t u : Table V} (hn : n.Shows t) (hm : m.Shows u)
    (cn : Canonical n) (cm : Canonical m) (passes : ∀ K, t.passes K = u.passes K)
    (value : ∀ K, t.value K = u.value K) (names : ∀ K a, t.names K a ↔ u.names K a) : n = m := by
  refine eq_of_faces n m cn cm fun K => ?_
  have hpresent : (n.at? K).isSome = (m.at? K).isSome := by
    rw [hn.present, hm.present, passes]
  have hvalue : (n.at? K).bind Node.value = (m.at? K).bind Node.value := by
    rw [hn.value, hm.value, value]
  have hname : (n.at? K).bind Node.name = (m.at? K).bind Node.name :=
    Option.ext fun a => by rw [hn.name, hm.name, names]
  cases ha : n.at? K with
  | none =>
    cases hb : m.at? K with
    | none => rfl
    | some b =>
      rw [ha, hb] at hpresent
      cases hpresent
  | some a =>
    cases hb : m.at? K with
    | none =>
      rw [ha, hb] at hpresent
      cases hpresent
    | some b =>
      rw [ha, hb] at hvalue hname
      have hloops : a.loops = b.loops :=
        Bool.eq_iff_iff.mpr ((hn.loops_iff cn ha).trans (hm.loops_iff cm hb).symm)
      have hv : a.value = b.value := hvalue
      have hname : a.name = b.name := hname
      rw [Option.map_some, Option.map_some, face, face, hv, hname, hloops]

end Node

end RouteTree
