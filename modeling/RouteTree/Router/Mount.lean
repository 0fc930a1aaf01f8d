import RouteTree.Node.Graft
import RouteTree.Router.Basic
import RouteTree.Spec.Basic

/-!
# Mounting a set of routes

The routes of an `ApiSpec` become one tree, which is grafted under each of its mounts. Where something
is already at a mount, the routes are inserted there one by one. A router takes a set of routes as a
whole or not at all.
-/

namespace RouteTree

namespace Node

variable {V : Type}

/-- Insert routes one after the other, each behind the segments of `mount`. -/
def insertAll (n : Node V) (mount : List Segment) :
    List (List Segment × V) → Attempt (Node V)
  | [] => pure n
  | (segments, value) :: rest => do
    let n ← (n.insert (mount ++ segments) value).attempt
    n.insertAll mount rest

/-- Mount routes under `mount`: their tree is grafted, or else they are inserted one by one. -/
def mountRoutes (n : Node V) (routes : List (List Segment × V)) (tree : Node V)
    (mount : List Segment) : Attempt (Node V) := do
  let (grafted, shared) ← Attempt.ofExcept (n.graft tree mount)
  let n ← if shared then pure grafted else grafted.insertAll mount routes
  Attempt.log (.specMounted (Segment.displayAll mount) routes.length shared)
  return n

/-- Mount routes under one pattern after the other. -/
def mountAll (n : Node V) (routes : List (List Segment × V)) (tree : Node V) :
    List (List Segment) → Attempt (Node V)
  | [] => pure n
  | mount :: rest => do
    let n ← n.mountRoutes routes tree mount
    n.mountAll routes tree rest

end Node

namespace Router

variable {V : Type}

/-- The tree of the routes alone; their mounts do not count. -/
def specTree (spec : ApiSpec V) : Attempt (Node V) := do
  let routes ← Attempt.ofExcept (ApiSpec.parseRoutes spec.paths)
  Node.empty.insertAll [] routes

/-- Mount a set of routes under each of its mounts, or at the root if it names none. -/
def addSpec (r : Router V) (spec : ApiSpec V) : Attempt (Router V) := do
  let routes ← Attempt.ofExcept (ApiSpec.parseRoutes spec.paths)
  let tree ← Node.empty.insertAll [] routes
  let mounts ← Attempt.ofExcept spec.mountPoints
  let root ← r.root.mountAll routes tree mounts
  return ⟨root⟩

/-- Mounted routes are not removed: other mounts may hold the same subtree. -/
def removeSpec (_ : Router V) (_ : ApiSpec V) : Except RouteError (Router V) :=
  .error (.notImplemented .specRemoval)

end Router

end RouteTree
