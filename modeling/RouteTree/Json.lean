import RouteTree.Assoc

/-!
# JSON values

The values that routes carry. Integers are exact, other numbers are decimals, and the fields of an
object stand in the order of their names, each name once.
-/

namespace RouteTree

/-- A decimal number, `± digits · 10 ^ exponent`. -/
structure Decimal where
  negative : Bool
  digits : Nat
  exponent : Int
  deriving DecidableEq, Repr

/-- A JSON value. -/
inductive Json where
  | null
  | bool (b : Bool)
  | int (n : Int)
  | decimal (d : Decimal)
  | str (text : String)
  | arr (items : List Json)
  | obj (fields : List (String × Json))
  deriving Repr

namespace Json

/-- The value of a field, if this is an object that has it. -/
def field? (name : String) : Json → Option Json
  | obj fields => Assoc.lookup name fields
  | _ => none

/-- The items of an array. -/
def items? : Json → Option (List Json)
  | arr items => some items
  | _ => none

/-- The object with these fields; of two fields with one name the later one stays. -/
def mkObj (fields : List (String × Json)) : Json :=
  obj (Assoc.ofList fields)

end Json

end RouteTree
