/-!
# Association lists in key order

Bound parameters, the fields of a JSON object, the routes of a document and the edges of a tree node
are all finite maps whose listings show their keys in increasing order. This file fixes the one
representation they share: a list of pairs, kept in key order by `insert`.

* `lookup` finds the first pair with a key;
* `insert` replaces the pair with that key or files a new one in front of the first larger key;
* `erase` drops every pair with a key.

Equality is asked before order, so what `lookup` says about `insert` needs no law of the order.
-/

namespace RouteTree.Assoc

variable {κ α : Type} [DecidableEq κ]

/-- The value filed under `k`, if there is one. -/
def lookup (k : κ) : List (κ × α) → Option α
  | [] => none
  | (j, a) :: rest => if k = j then some a else lookup k rest

/-- File `a` under `k`, in place of what stood there. -/
def insert [LT κ] [DecidableLT κ] (k : κ) (a : α) : List (κ × α) → List (κ × α)
  | [] => [(k, a)]
  | (j, b) :: rest =>
    if k = j then (k, a) :: rest
    else if k < j then (k, a) :: (j, b) :: rest
    else (j, b) :: insert k a rest

/-- Drop what is filed under `k`. -/
def erase (k : κ) : List (κ × α) → List (κ × α)
  | [] => []
  | (j, a) :: rest => if k = j then erase k rest else (j, a) :: erase k rest

/-- File the pairs of `more` over those of `m`, in their order: of two pairs with one key the later
    one stays. -/
def merge [LT κ] [DecidableLT κ] (m more : List (κ × α)) : List (κ × α) :=
  more.foldl (fun acc entry => insert entry.1 entry.2 acc) m

/-- The map a list of pairs describes: sorted, and of two pairs with one key the later one stays. -/
def ofList [LT κ] [DecidableLT κ] (pairs : List (κ × α)) : List (κ × α) :=
  merge [] pairs

/-! ## What a lookup sees -/

@[simp] theorem lookup_nil (k : κ) : lookup k ([] : List (κ × α)) = none := rfl

theorem lookup_cons (k j : κ) (a : α) (rest : List (κ × α)) :
    lookup k ((j, a) :: rest) = if k = j then some a else lookup k rest := rfl

@[simp] theorem lookup_insert_self [LT κ] [DecidableLT κ] (k : κ) (a : α) :
    ∀ m : List (κ × α), lookup k (insert k a m) = some a
  | [] => by simp [insert, lookup]
  | (j, b) :: rest => by
    have ih := lookup_insert_self k a rest
    unfold insert
    split
    · simp [lookup]
    · rename_i h
      split <;> simp [lookup, h, ih]

theorem lookup_insert_of_ne [LT κ] [DecidableLT κ] {k k' : κ} (h : k' ≠ k) (a : α) :
    ∀ m : List (κ × α), lookup k' (insert k a m) = lookup k' m
  | [] => by simp [insert, lookup, h]
  | (j, b) :: rest => by
    have ih := lookup_insert_of_ne h a rest
    unfold insert
    split
    · rename_i hj
      subst hj
      simp [lookup, h]
    · split <;> simp [lookup, h, ih]

theorem lookup_erase_self (k : κ) : ∀ m : List (κ × α), lookup k (erase k m) = none
  | [] => rfl
  | (j, b) :: rest => by
    have ih := lookup_erase_self k rest
    unfold erase
    split
    · exact ih
    · rename_i h
      simp [lookup, h, ih]

theorem lookup_erase_of_ne {k k' : κ} (h : k' ≠ k) :
    ∀ m : List (κ × α), lookup k' (erase k m) = lookup k' m
  | [] => rfl
  | (j, b) :: rest => by
    have ih := lookup_erase_of_ne h rest
    unfold erase
    split
    · rename_i hj
      subst hj
      simp [ih, lookup, h]
    · simp [ih, lookup]

end RouteTree.Assoc
