import RouteTree.Assoc

/-!
# Parameters

A lookup binds parameters and an expansion consumes them. A parameter is a name with a single text or
with a list of texts; a directory listing is a list under the name `listingKey`.
-/

namespace RouteTree

/-- The value of a parameter. -/
inductive ParamValue where
  | single (text : String)
  | list (items : List String)
  deriving DecidableEq, Repr

namespace ParamValue

/-- The text of a single value. -/
def text? : ParamValue → Option String
  | single text => some text
  | list _ => none

/-- The items of a list. -/
def items? : ParamValue → Option (List String)
  | single _ => none
  | list items => some items

/-- A value as one text: the items of a list are joined by commas. -/
def display : ParamValue → String
  | single text => text
  | list items => ",".intercalate items

/-- The value is a single text, namely this one. -/
def isText (value : ParamValue) (text : String) : Bool :=
  value.text? = some text

end ParamValue

/-- Parameters by name. -/
abbrev Params := List (String × ParamValue)

namespace Params

/-- The name a directory listing is bound to. -/
def listingKey : String := "_ls"

/-- The value bound to `name`. -/
def get? (params : Params) (name : String) : Option ParamValue :=
  Assoc.lookup name params

/-- Bind `name`, over what it was bound to. -/
def set (params : Params) (name : String) (value : ParamValue) : Params :=
  Assoc.insert name value params

/-- Unbind `name`. -/
def remove (params : Params) (name : String) : Params :=
  Assoc.erase name params

/-- The parameters of both, where those of `more` win. -/
def merge (params more : Params) : Params :=
  Assoc.merge params more

@[simp] theorem get?_set_self (params : Params) (name : String) (value : ParamValue) :
    (params.set name value).get? name = some value :=
  Assoc.lookup_insert_self name value params

theorem get?_set_of_ne {name other : String} (h : other ≠ name) (params : Params)
    (value : ParamValue) : (params.set name value).get? other = params.get? other :=
  Assoc.lookup_insert_of_ne h value params

@[simp] theorem get?_remove_self (params : Params) (name : String) :
    (params.remove name).get? name = none :=
  Assoc.lookup_erase_self name params

theorem get?_remove_of_ne {name other : String} (h : other ≠ name) (params : Params) :
    (params.remove name).get? other = params.get? other :=
  Assoc.lookup_erase_of_ne h params

theorem merge_cons (params : Params) (name : String) (value : ParamValue) (more : Params) :
    params.merge ((name, value) :: more) = (params.set name value).merge more := rfl

theorem merge_append (params first more : Params) :
    params.merge (first ++ more) = (params.merge first).merge more := List.foldl_append

theorem get?_merge_of_not_mem {name : String} : ∀ {more : Params} (params : Params),
    name ∉ more.map Prod.fst → (params.merge more).get? name = params.get? name
  | [], _, _ => rfl
  | (other, x) :: more, params, h => by
    rw [List.map_cons, List.mem_cons, not_or] at h
    have ih := get?_merge_of_not_mem (params.set other x) h.2
    rw [get?_set_of_ne h.1] at ih
    exact ih

theorem get?_merge_of_mem {name : String} {value : ParamValue} : ∀ {more : Params}
    (params : Params), (more.map Prod.fst).Nodup → (name, value) ∈ more →
      (params.merge more).get? name = some value
  | (other, x) :: more, params, hd, h => by
    rw [List.map_cons, List.nodup_cons] at hd
    rcases List.mem_cons.mp h with he | h
    · cases he
      have hn := get?_merge_of_not_mem (params.set name value) hd.1
      rw [get?_set_self] at hn
      exact hn
    · exact get?_merge_of_mem (params.set other x) hd.2 h

end Params

end RouteTree
