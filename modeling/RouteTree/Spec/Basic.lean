import RouteTree.Assoc
import RouteTree.Pattern

/-!
# Sets of routes

An `ApiSpec` is a set of routes with the patterns they are mounted under. Its patterns are read when
the routes are mounted, and the first bad one of each kind is reported.
-/

namespace RouteTree

/-- A set of routes and where they belong. -/
structure ApiSpec (V : Type) where
  /-- The patterns the routes are mounted under. Without any, they are mounted at the root. -/
  mounts : List String
  /-- The routes, in the order of their patterns. -/
  paths : List (String × V)

namespace ApiSpec

variable {V : Type}

/-- No routes, and no mounts. -/
def empty : ApiSpec V := ⟨[], []⟩

/-- Add a mount. -/
def withMount (spec : ApiSpec V) (pattern : String) : ApiSpec V :=
  { spec with mounts := spec.mounts ++ [pattern] }

/-- Add a route, in place of one with the same pattern. -/
def withPath (spec : ApiSpec V) (pattern : String) (value : V) : ApiSpec V :=
  { spec with paths := Assoc.insert pattern value spec.paths }

/-- The routes with their patterns read, or what is wrong with the first bad pattern. -/
def parseRoutes : List (String × V) → Except RouteError (List (List Segment × V))
  | [] => .ok []
  | (pattern, value) :: rest =>
    match Pattern.parse pattern with
    | .error e => .error e
    | .ok segments =>
      match parseRoutes rest with
      | .error e => .error e
      | .ok routes => .ok ((segments, value) :: routes)

/-- The mounts with their patterns read, or what is wrong with the first bad pattern. -/
def parseMounts : List String → Except RouteError (List (List Segment))
  | [] => .ok []
  | pattern :: rest =>
    match Pattern.parse pattern with
    | .error e => .error e
    | .ok segments =>
      match parseMounts rest with
      | .error e => .error e
      | .ok mounts => .ok (segments :: mounts)

/-- Where the routes are mounted: at the root if no mount is named. -/
def mountPoints (spec : ApiSpec V) : Except RouteError (List (List Segment)) :=
  if spec.mounts = [] then .ok [[]] else parseMounts spec.mounts

end ApiSpec

end RouteTree
