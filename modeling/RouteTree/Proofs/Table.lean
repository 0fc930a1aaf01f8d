import RouteTree.Key
import RouteTree.Node.Insert

/-!
# Tables of routes

A table is a list of routes, the oldest first. It is what a tree of routes is read against, and it is
read without a tree:

* `passes`: some route of the table has these keys or goes on after them;
* `value`: the value at some keys, the one of the last route that ends there, else the one of the
  first route with an optional segment that starts or ends there;
* `names`: some route of the table names the component that leads to these keys;
* `reach`: where the greedy walk of a request ends among the keys the routes pass.
-/

namespace RouteTree

/-! ## 1. Paths -/

namespace Segment

/-- The keys of a path. -/
def keysOf (path : List Segment) : List Key := path.map Segment.key

@[simp] theorem keysOf_nil : keysOf [] = [] := rfl

@[simp] theorem keysOf_cons (s : Segment) (rest : List Segment) :
    keysOf (s :: rest) = s.key :: keysOf rest := rfl

@[simp] theorem keysOf_append (front back : List Segment) :
    keysOf (front ++ back) = keysOf front ++ keysOf back := List.map_append

/-- An optional segment of the path starts or ends at these keys. -/
def fillsAt : List Segment → List Key → Bool
  | [], _ => false
  | s :: _, [] => s.isOptional
  | s :: rest, k :: K => k = s.key && ((s.isOptional && K = []) || fillsAt rest K)

/-- The name a template of the path has for the component that leads to these keys. -/
def bindsAt : List Segment → List Key → Option String
  | s :: _, [k] => if k = s.key then s.template?.map Template.name else none
  | s :: rest, k :: K => if k = s.key then bindsAt rest K else none
  | _, _ => none

@[simp] theorem bindsAt_nil (path : List Segment) : bindsAt path [] = none := by
  cases path <;> rfl

@[simp] theorem bindsAt_of_nil (K : List Key) : bindsAt [] K = none := by
  cases K <;> rfl

theorem bindsAt_single (s : Segment) (rest : List Segment) (k : Key) :
    bindsAt (s :: rest) [k] = if k = s.key then s.template?.map Template.name else none := rfl

theorem bindsAt_cons (s : Segment) (rest : List Segment) (j k : Key) (K : List Key) :
    bindsAt (s :: rest) (j :: k :: K) = if j = s.key then bindsAt rest (k :: K) else none := rfl

theorem bindsAt_of_ne {s : Segment} {j : Key} (h : j ≠ s.key) (rest : List Segment) (K : List Key) :
    bindsAt (s :: rest) (j :: K) = none := by
  cases K with
  | nil => rw [bindsAt_single, if_neg h]
  | cons k K => rw [bindsAt_cons, if_neg h]

theorem fillsAt_iff (path : List Segment) : ∀ K : List Key,
    fillsAt path K = true ↔ ∃ front s back, path = front ++ s :: back ∧ s.isOptional = true ∧
      (K = keysOf front ∨ K = keysOf (front ++ [s])) := by
  induction path with
  | nil => intro K; simp [fillsAt]
  | cons s rest ih =>
    intro K
    constructor
    · intro h
      cases K with
      | nil => exact ⟨[], s, rest, rfl, h, Or.inl rfl⟩
      | cons k K =>
        simp only [fillsAt, Bool.and_eq_true, Bool.or_eq_true, decide_eq_true_eq] at h
        obtain ⟨rfl, h⟩ := h
        rcases h with ⟨ho, rfl⟩ | h
        · exact ⟨[], s, rest, rfl, ho, Or.inr rfl⟩
        · obtain ⟨front, o, back, rfl, ho, hK⟩ := (ih K).mp h
          exact ⟨s :: front, o, back, rfl, ho, hK.imp (fun e => by simp [e]) (fun e => by simp [e])⟩
    · rintro ⟨front, o, back, he, ho, hK⟩
      cases front with
      | nil =>
        obtain ⟨rfl, rfl⟩ := List.cons.inj he
        rcases hK with rfl | rfl
        · exact ho
        · simp [fillsAt, ho]
      | cons f front =>
        obtain ⟨rfl, rfl⟩ := List.cons.inj he
        have hfill : fillsAt (front ++ o :: back) K.tail = true :=
          (ih K.tail).mpr
            ⟨front, o, back, rfl, ho, hK.imp (fun e => by simp [e]) (fun e => by simp [e])⟩
        rcases hK with rfl | rfl <;> simp_all [fillsAt]

theorem bindsAt_iff (path : List Segment) (name : String) : ∀ K : List Key,
    bindsAt path K = some name ↔ ∃ front t back, path = front ++ .param t :: back ∧
      t.name = name ∧ K = keysOf (front ++ [.param t]) := by
  induction path with
  | nil => intro K; simp
  | cons s rest ih =>
    intro K
    constructor
    · intro h
      match K, h with
      | [], h => simp at h
      | [k], h =>
        rw [bindsAt_single] at h
        split at h
        · rename_i hk
          cases s with
          | param t =>
            refine ⟨[], t, rest, rfl, by simpa [template?] using h, by simp [hk]⟩
          | literal _ => simp [template?] at h
          | reserved _ => simp [template?] at h
          | tag _ => simp [template?] at h
        · cases h
      | j :: k :: K, h =>
        rw [bindsAt_cons] at h
        split at h
        · rename_i hj
          obtain ⟨front, t, back, rfl, ht, hK⟩ := (ih (k :: K)).mp h
          exact ⟨s :: front, t, back, rfl, ht, by simp [hj, hK]⟩
        · cases h
    · rintro ⟨front, t, back, he, ht, rfl⟩
      cases front with
      | nil =>
        obtain ⟨rfl, rfl⟩ := List.cons.inj he
        simp [bindsAt_single, template?, ht]
      | cons f front =>
        obtain ⟨rfl, rfl⟩ := List.cons.inj he
        have ih' := (ih (keysOf (front ++ [.param t]))).mpr ⟨front, t, back, rfl, ht, rfl⟩
        cases front with
        | nil => simpa [bindsAt_cons] using ih'
        | cons g front => simpa [bindsAt_cons] using ih'

end Segment

/-! ## 2. Tables -/

/-- A route: its path, and the value of the requests that end there. -/
abbrev Route (V : Type) := List Segment × V

/-- Routes, the oldest first. -/
abbrev Table (V : Type) := List (Route V)

namespace Table

open Segment (keysOf fillsAt bindsAt)

variable {V : Type}

/-- Some route has these keys, or goes on after them. -/
def passes (t : Table V) (K : List Key) : Bool := t.any fun r => K.isPrefixOf (keysOf r.1)

/-- The last route with exactly these keys. -/
def ending? (t : Table V) (K : List Key) : Option (Route V) :=
  (t.filter fun r => keysOf r.1 = K).getLast?

/-- The first route with an optional segment that starts or ends at these keys. -/
def filling? (t : Table V) (K : List Key) : Option (Route V) := t.find? fun r => fillsAt r.1 K

/-- The value at some keys: the one of the last route that ends there, else the one of the first
    route that is complete there without its optional segments. -/
def value (t : Table V) (K : List Key) : Option V :=
  ((t.ending? K).or (t.filling? K)).map Prod.snd

/-- Some route gives this name to the component that leads to these keys. -/
def names (t : Table V) (K : List Key) (name : String) : Prop :=
  ∃ r ∈ t, bindsAt r.1 K = some name

theorem passes_append (t u : Table V) (K : List Key) :
    (t ++ u).passes K = (t.passes K || u.passes K) := List.any_append

theorem passes_single (r : Route V) (K : List Key) :
    passes [r] K = K.isPrefixOf (keysOf r.1) := by
  simp [passes]

/-- A route of the table ends at its keys. -/
theorem ending?_of_mem {t : Table V} {P : List Segment} {v : V} (h : (P, v) ∈ t) :
    ∃ last, t.ending? (keysOf P) = some last := by
  have hmem : (P, v) ∈ t.filter fun r => keysOf r.1 = keysOf P :=
    List.mem_filter.mpr ⟨h, decide_eq_true rfl⟩
  exact ⟨_, List.getLast?_eq_some_getLast (List.ne_nil_of_mem hmem)⟩

/-- So there is a value at the keys of each route. -/
theorem value_isSome_of_mem {t : Table V} {r : Route V} (h : r ∈ t) :
    (t.value (keysOf r.1)).isSome = true := by
  obtain ⟨last, hlast⟩ := ending?_of_mem h
  rw [value, hlast]
  rfl

/-- **What one more route does to the value at some keys**: it sets it if it ends there, and fills it
    in if it is complete there without an optional segment. -/
theorem value_snoc (t : Table V) (r : Route V) (K : List Key) :
    (t ++ [r]).value K = if keysOf r.1 = K then some r.2
      else if fillsAt r.1 K then (t.value K).or (some r.2) else t.value K := by
  unfold value ending? filling?
  rw [List.filter_append, List.find?_append]
  by_cases hk : keysOf r.1 = K
  · simp [hk]
  · by_cases hf : fillsAt r.1 K
    · simp only [hk, hf, List.filter_cons, decide_false, Bool.false_eq_true, if_false,
        List.filter_nil, List.append_nil, List.find?_cons, if_true]
      cases (t.filter fun r => keysOf r.1 = K).getLast? <;>
        cases t.find? (fun r => fillsAt r.1 K) <;> rfl
    · simp [hk, hf]

theorem value_single (r : Route V) (K : List Key) :
    value [r] K = if keysOf r.1 = K ∨ fillsAt r.1 K = true then some r.2 else none := by
  have h := value_snoc [] r K
  have hnil : value ([] : Table V) K = none := rfl
  rw [List.nil_append, hnil] at h
  rw [h]
  by_cases hk : keysOf r.1 = K <;> by_cases hf : fillsAt r.1 K = true <;> simp [hk, hf]

theorem names_snoc (t : Table V) (r : Route V) (K : List Key) (name : String) :
    (t ++ [r]).names K name ↔ t.names K name ∨ bindsAt r.1 K = some name := by
  simp [names, or_and_right, exists_or]

end Table

/-! ## 3. Requests -/

/-- Where a request ends that has come to some keys, among the keys that `passes` admits: a key of its
    own comes first, then the open one, then the one for all that is left; an empty component has only
    the first of these. There is no way back. -/
def reach (passes : List Key → Bool) (K : List Key) : List String → Option (List Key)
  | [] => some K
  | c :: rest =>
    if passes (K ++ [.exact c]) then reach passes (K ++ [.exact c]) rest
    else if c = "" then none
    else if passes (K ++ [.wild]) then reach passes (K ++ [.wild]) rest
    else if passes (K ++ [.catchAll]) then some (K ++ [.catchAll])
    else none

end RouteTree
