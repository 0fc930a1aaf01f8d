import RouteTree.Router.Basic

/-!
# Replacing a router

A `SharedRouter` is a place that holds the router in use. A reader takes the router out and keeps it
as long as it likes; a reload puts another one in its place and gets the old one back.
-/

namespace RouteTree

/-- A place for the router in use. -/
structure SharedRouter (V : Type) where
  current : Router V

namespace SharedRouter

variable {V : Type}

/-- A place that holds the router without routes. -/
def empty : SharedRouter V := ⟨Router.empty⟩

/-- The router in use. -/
def load (s : SharedRouter V) : Router V := s.current

/-- Put another router in use. The answer holds the previous one, and the place afterwards. -/
def store (s : SharedRouter V) (router : Router V) : Logged (Router V × SharedRouter V) :=
  (Logged.log .treeSwapped).andThen fun () => Logged.quiet (s.current, ⟨router⟩)

end SharedRouter

end RouteTree
