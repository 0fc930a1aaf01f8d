import RouteTree.Json

/-!
# Values of routes

A tree carries values of any type. What a lookup hands down from them is their metadata: the
permissions and the filters that hold for every path below.
-/

namespace RouteTree

/-- What a value hands down to the paths below it. -/
class RouteValue (V : Type) where
  /-- The permissions that are asked for. -/
  security : V → List Json
  /-- The filters that apply. -/
  filters : V → List Json

/-- A JSON value hands down the arrays among its fields. -/
instance : RouteValue Json where
  security value := ((value.field? "security").bind Json.items?).getD []
  filters value := ((value.field? "filters").bind Json.items?).getD []

/-- A plain text hands down nothing. -/
instance : RouteValue String where
  security _ := []
  filters _ := []

end RouteTree
