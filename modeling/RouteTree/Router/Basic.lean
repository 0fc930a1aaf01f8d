import RouteTree.Node.Insert
import RouteTree.Pattern

/-!
# Routers

A router is a tree of routes that patterns are inserted into. Routes are never taken out again.
-/

namespace RouteTree

/-- A tree of routes. -/
structure Router (V : Type) where
  root : Node V

namespace Router

variable {V : Type}

/-- The router without routes. -/
def empty : Router V := ⟨Node.empty⟩

/-- Insert a route. -/
def insert (r : Router V) (segments : List Segment) (value : V) : Changed (Router V) :=
  (r.root.insert segments value).map Router.mk

/-- Insert the route of a pattern. -/
def insertPattern (r : Router V) (pattern : String) (value : V) : Changed (Router V) :=
  match Pattern.parse pattern with
  | .error e => .refuse r e
  | .ok segments => r.insert segments value

/-- Routes are not removed: a tree may hold one subtree in several places. -/
def remove (_ : Router V) (_ : String) : Except RouteError (Router V) :=
  .error (.notImplemented .routeRemoval)

/-- The routes of a router, each as its path and its value. -/
def routes (r : Router V) : List (List String × V) := r.root.routes

end Router

end RouteTree
