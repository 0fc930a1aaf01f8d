import Mathlib.Data.List.Nodup
import RouteTree.Proofs.Node.Canonical
import RouteTree.Proofs.Router.Conflict
import RouteTree.Proofs.Router.Sharing

/-!
# The order of insertions

Routes are inserted one after the other, in some order or in another one:

* `Table.Separate` says which routes have no order among them: no two end at the same keys, and where
  none ends no two are complete without an optional segment. `Table.Separate.value_perm` is what the
  table then shows, whatever its order;
* `insertRows_ok_iff` says when all insertions succeed, by the routes and not by their order;
* `eq_of_perm` is the tree, and `insertion_order_irrelevant` what a request sees of it.
-/

namespace RouteTree

open Segment (keysOf fillsAt)

variable {V : Type}

/-! ## 1. Tables in another order -/

namespace Table

/-- No two routes end at the same keys, and at keys where no route ends at most one has an optional
    segment that starts or ends there. -/
structure Separate (t : Table V) : Prop where
  ends : (t.map fun r => keysOf r.1).Nodup
  fills : ∀ K, (∀ r ∈ t, keysOf r.1 ≠ K) → ∀ r ∈ t, ∀ s ∈ t,
    fillsAt r.1 K = true → fillsAt s.1 K = true → r = s

section
variable {t u : Table V}

theorem Separate.perm (h : t.Perm u) (ht : t.Separate) : u.Separate where
  ends := (h.map _).nodup_iff.mp ht.ends
  fills K hK r hr s hs := ht.fills K (fun q hq => hK q (h.mem_iff.mp hq)) r (h.mem_iff.mpr hr) s
    (h.mem_iff.mpr hs)

theorem Separate.ending?_eq_some_iff (ht : t.Separate) {K : List Key} {r : Route V} :
    t.ending? K = some r ↔ r ∈ t ∧ keysOf r.1 = K := by
  have hmem : ∀ q, q ∈ t.filter (fun q => keysOf q.1 = K) ↔ q ∈ t ∧ keysOf q.1 = K := fun q => by
    rw [List.mem_filter, decide_eq_true_iff]
  constructor
  · intro h
    exact (hmem r).mp (List.mem_of_getLast? h)
  · intro h
    have hne := List.ne_nil_of_mem ((hmem r).mpr h)
    obtain ⟨hq, hK⟩ := (hmem _).mp (List.getLast_mem hne)
    rw [ending?, List.getLast?_eq_some_getLast hne]
    exact congrArg some (List.inj_on_of_nodup_map ht.ends hq h.1 (hK.trans h.2.symm))

theorem fillsAt_of_filling? {K : List Key} {r : Route V} (h : t.filling? K = some r) :
    r ∈ t ∧ fillsAt r.1 K = true := by
  have hf := List.find?_some h
  exact ⟨List.mem_of_find?_eq_some h, hf⟩

theorem Separate.filling?_eq_some_iff (ht : t.Separate) {K : List Key}
    (hK : ∀ r ∈ t, keysOf r.1 ≠ K) {r : Route V} :
    t.filling? K = some r ↔ r ∈ t ∧ fillsAt r.1 K = true := by
  refine ⟨fillsAt_of_filling?, ?_⟩
  rintro ⟨hr, hf⟩
  cases h : t.filling? K with
  | none => exact absurd hf (List.find?_eq_none.mp h r hr)
  | some q =>
    obtain ⟨hq, hfq⟩ := fillsAt_of_filling? h
    exact congrArg some (ht.fills K hK q hq r hr hfq hf)

/-- The value at some keys, without regard to the order. -/
theorem Separate.value_eq_some_iff (ht : t.Separate) {K : List Key} {v : V} :
    t.value K = some v ↔ ∃ r ∈ t, r.2 = v ∧
      (keysOf r.1 = K ∨ (∀ q ∈ t, keysOf q.1 ≠ K) ∧ fillsAt r.1 K = true) := by
  rw [value]
  cases he : t.ending? K with
  | some q =>
    obtain ⟨hq, hK⟩ := ht.ending?_eq_some_iff.mp he
    constructor
    · intro h
      exact ⟨q, hq, Option.some.inj h, Or.inl hK⟩
    · rintro ⟨r, hr, rfl, hrK | ⟨hnone, -⟩⟩
      · rw [ht.ending?_eq_some_iff.mpr ⟨hr, hrK⟩] at he
        cases he
        rfl
      · exact absurd hK (hnone q hq)
  | none =>
    have hnone : ∀ q ∈ t, keysOf q.1 ≠ K := fun q hq hK => by
      rw [ht.ending?_eq_some_iff.mpr ⟨hq, hK⟩] at he
      cases he
    rw [Option.none_or, Option.map_eq_some_iff]
    constructor
    · rintro ⟨r, hr, hv⟩
      obtain ⟨hr, hf⟩ := (ht.filling?_eq_some_iff hnone).mp hr
      exact ⟨r, hr, hv, Or.inr ⟨hnone, hf⟩⟩
    · rintro ⟨r, hr, hv, hrK | ⟨-, hf⟩⟩
      · exact absurd hrK (hnone r hr)
      · exact ⟨r, (ht.filling?_eq_some_iff hnone).mpr ⟨hr, hf⟩, hv⟩

/-- **Separate routes have the same values in every order.** -/
theorem Separate.value_perm (h : t.Perm u) (ht : t.Separate) (K : List Key) :
    t.value K = u.value K := by
  refine Option.ext fun v => ?_
  rw [ht.value_eq_some_iff, (ht.perm h).value_eq_some_iff]
  simp only [h.mem_iff]

theorem passes_perm (h : t.Perm u) (K : List Key) : t.passes K = u.passes K := by
  rw [Bool.eq_iff_iff, passes, passes, List.any_eq_true, List.any_eq_true]
  simp only [h.mem_iff]

theorem names_perm (h : t.Perm u) (K : List Key) (name : String) :
    t.names K name ↔ u.names K name := by
  simp only [names, h.mem_iff]

end

end Table

/-! ## 2. When all insertions succeed -/

/-- The paths have no two names for one component. -/
def Agree (P Q : List Segment) : Prop := ∀ j a b, ¬ ConflictAt P Q j a b

theorem ConflictAt.symm {P Q : List Segment} {j : Nat} {a b : String} (h : ConflictAt P Q j a b) :
    ConflictAt Q P j b a :=
  ⟨fun i hi => (h.keys i hi).symm, h.has, h.asks, h.differ.symm⟩

theorem Agree.symm {P Q : List Segment} (h : Agree P Q) : Agree Q P :=
  fun j a b hc => h j b a hc.symm

/-- The paths of any two of the routes agree. -/
def Table.AllAgree (t : Table V) : Prop := t.Pairwise fun r s => Agree r.1 s.1

theorem Table.allAgree_perm {t u : Table V} (h : t.Perm u) : t.AllAgree ↔ u.AllAgree :=
  h.pairwise_iff Agree.symm

namespace Router

theorem insert_ok_of_agree {r : Router V} {t : Table V} (hr : r.root.Shows t) {row : Route V}
    (h : ∀ Q ∈ t, Agree (Node.cutRoute row).1 Q.1) :
    ∃ r', (r.insert row.1 row.2).outcome = .ok r' := by
  cases ho : (r.insert row.1 row.2).outcome with
  | ok r' => exact ⟨r', rfl⟩
  | error e =>
    obtain ⟨a, b, -, Q, hQ, j, hj⟩ := conflict_of_refused hr ho
    exact absurd hj (h Q hQ j a b)

theorem agree_of_insert_ok {r r' : Router V} {t : Table V} (hr : r.root.Shows t) {row : Route V}
    (h : (r.insert row.1 row.2).outcome = .ok r') : ∀ Q ∈ t, Agree (Node.cutRoute row).1 Q.1 := by
  intro Q hQ j a b hj
  obtain ⟨c, d, he⟩ : ∃ c d, (r.insert row.1 row.2).outcome = .error (.nameConflict c d) :=
    refused_of_conflict hr hQ hj
  rw [he] at h
  cases h

/-- **All insertions succeed if and only if the routes agree**, with those that are there and among
    themselves. The induction is on the rows; the table is what the tree shows so far. -/
theorem insertRows_ok_iff : ∀ (rows : List (Route V)) {r : Router V} {t : Table V},
    r.root.Shows t → t.AllAgree →
    ((∃ r', (r.insertRows rows).outcome = .ok r') ↔ (t ++ rows.map Node.cutRoute).AllAgree)
  | [], r, t, _, ht => by
    rw [List.map_nil, List.append_nil]
    exact ⟨fun _ => ht, fun _ => ⟨r, rfl⟩⟩
  | row :: rows, r, t, hr, ht => by
    have happend : t ++ (row :: rows).map Node.cutRoute
        = (t ++ [Node.cutRoute row]) ++ rows.map Node.cutRoute := by
      rw [List.map_cons, List.append_assoc]
      rfl
    rw [insertRows_cons, happend]
    constructor
    · rintro ⟨r', h⟩
      obtain ⟨m, hm, h⟩ := Attempt.ok_of_bind h
      have hrow := agree_of_insert_ok hr hm
      have ht' : Table.AllAgree (t ++ [Node.cutRoute row]) :=
        List.pairwise_append.mpr ⟨ht, List.pairwise_singleton _ _, fun Q hQ s hs => by
          rw [List.mem_singleton.mp hs]
          exact (hrow Q hQ).symm⟩
      exact (insertRows_ok_iff rows (shows_of_insert hr hm) ht').mp ⟨r', h⟩
    · intro h
      have ht' : Table.AllAgree (t ++ [Node.cutRoute row]) := (List.pairwise_append.mp h).1
      have hrow : ∀ Q ∈ t, Agree (Node.cutRoute row).1 Q.1 := fun Q hQ =>
        ((List.pairwise_append.mp ht').2.2 Q hQ _ (List.mem_singleton_self _)).symm
      obtain ⟨m, hm⟩ := insert_ok_of_agree hr hrow
      obtain ⟨r', h⟩ := (insertRows_ok_iff rows (shows_of_insert hr hm) ht').mpr h
      refine ⟨r', ?_⟩
      rw [hm]
      exact h

/-! ## 3. The tree -/

/-- What some insertions into the empty router make. -/
theorem shows_of_insertRows {rows : List (Route V)} {r : Router V}
    (h : (empty.insertRows rows).outcome = .ok r) :
    r.root.Shows (rows.map Node.cutRoute) ∧ r.root.Canonical := by
  rw [outcome_insertRows] at h
  obtain ⟨root, hroot, rfl⟩ := Attempt.ok_of_map h
  exact ⟨Node.Shows.empty.insertAll rows hroot, Node.canonical_empty.insertAll hroot⟩

/-- Separate routes make the same router in every order. -/
theorem eq_of_perm {rows rows' : List (Route V)} (h : rows.Perm rows') {r r' : Router V}
    (hr : (empty.insertRows rows).outcome = .ok r) (hr' : (empty.insertRows rows').outcome = .ok r')
    (hs : Table.Separate (rows.map Node.cutRoute)) : r = r' := by
  obtain ⟨hshows, hcanon⟩ := shows_of_insertRows hr
  obtain ⟨hshows', hcanon'⟩ := shows_of_insertRows hr'
  have hperm := h.map Node.cutRoute
  have hroot : r.root = r'.root := Node.eq_of_shows hshows hshows' hcanon hcanon'
    (Table.passes_perm hperm) (hs.value_perm hperm) (Table.names_perm hperm)
  cases r
  cases r'
  exact congrArg Router.mk hroot

/-- **The order of insertions does not matter.** All routes of a list can be inserted into the empty
    router in one order if and only if they can in another. If, after each is cut behind its first
    catch-all, no two of them end at the same keys, and at keys where none ends at most one of them has
    an optional segment that starts or ends there, then no lookup tells the two routers apart. -/
theorem insertion_order_irrelevant [RouteValue V] {rows rows' : List (Route V)}
    (h : rows.Perm rows') :
    ((∃ r, (empty.insertRows rows).outcome = .ok r)
      ↔ ∃ r', (empty.insertRows rows').outcome = .ok r') ∧
    ∀ r r', (empty.insertRows rows).outcome = .ok r → (empty.insertRows rows').outcome = .ok r' →
      Table.Separate (rows.map Node.cutRoute) → SameAnswers r r' := by
  have hok : ∀ rows : List (Route V), (∃ r, (empty.insertRows rows).outcome = .ok r)
      ↔ Table.AllAgree (rows.map Node.cutRoute) := fun rows =>
    insertRows_ok_iff rows Node.Shows.empty .nil
  refine ⟨?_, fun r r' hr hr' hs path => ?_⟩
  · refine (hok rows).trans (Iff.trans ?_ (hok rows').symm)
    exact Table.allAgree_perm (h.map Node.cutRoute)
  · rw [eq_of_perm h hr hr' hs]

/-- A route that ends where another one is complete without its optional segment, and whose literal
    shares a node with the pinned template of the latter. -/
theorem insertion_order_irrelevant_pages :
    let home : Route String := ([.literal "en"], "home")
    let page : Route String :=
      ([.param ⟨"site", none, some "en"⟩, .param ⟨"page", some .optional, none⟩], "page")
    let log : Route String := ([.literal "en", .literal "log"], "log")
    ∃ r r', (empty.insertRows [home, page, log]).outcome = .ok r ∧
      (empty.insertRows [log, page, home]).outcome = .ok r' ∧ SameAnswers r r' := by
  intro home page log
  have hperm : [home, page, log].Perm [log, page, home] := (List.reverse_perm _).symm
  have hfill : ∀ K, ∀ r ∈ [home, page, log], fillsAt r.1 K = true → r = page := by
    intro K r hr hf
    simp only [List.mem_cons, List.not_mem_nil, or_false] at hr
    rcases hr with rfl | rfl | rfl
    · rcases K with _ | ⟨k, K⟩ <;> simp [home, fillsAt, Segment.isOptional] at hf
    · rfl
    · rcases K with _ | ⟨k, _ | ⟨l, K⟩⟩ <;> simp [log, fillsAt, Segment.isOptional] at hf
  have hs : Table.Separate ([home, page, log].map Node.cutRoute) := by
    refine ⟨by decide, fun K _ r hr s hs hfr hfs => ?_⟩
    exact (hfill K r hr hfr).trans (hfill K s hs hfs).symm
  exact ⟨_, _, rfl, rfl, (insertion_order_irrelevant hperm).2 _ _ rfl rfl hs⟩

end Router

end RouteTree
