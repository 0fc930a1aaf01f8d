import RouteTree.Change
import RouteTree.Node.Basic

/-!
# Inserting a route

A route is inserted along the structure that is there, and a fresh branch is built for the rest. Where
a template may be absent, the path is complete without it as well: the value is also set at the node
in front of it and at the node behind it, if they have none.

The tree is changed where it is, and `grow` would leave what it has done when a name stops it halfway:
children on the way that have been given a name. So `insert` checks all names before it lets anything
grow.
-/

namespace RouteTree.Node

variable {V : Type}

/-! ## 1. What is inserted -/

/-- A catch-all takes all that is left, so nothing may follow the first one. -/
def cutAfterCatchAll : List Segment → List Segment
  | [] => []
  | s :: rest => if s.isCatchAll then [s] else s :: cutAfterCatchAll rest

/-- The line of the log about the segments that are cut off, if there are any. -/
def cutEvents (segments : List Segment) : List Event :=
  let path := cutAfterCatchAll segments
  if path.length < segments.length then
    match path.getLast? with
    | some last => [.catchAllTailIgnored last.display (segments.length - path.length)]
    | none => []
  else []

/-- Walk along the structure that is there, and stop at the first name that differs. -/
def checkNames (n : Node V) : List Segment → Except RouteError Unit
  | [] => .ok ()
  | s :: rest =>
    match n.child? s.key with
    | none => .ok ()
    | some child =>
      match child.checkName s with
      | .error e => .error e
      | .ok () => child.checkNames rest

/-! ## 2. Fresh branches -/

/-- The child of a segment in a fresh branch, over what is below it. -/
def fresh (s : Segment) (value : V) (below : Node V) : Node V :=
  if s.isCatchAll then looping value
  else if s.isOptional then below.setValue value
  else below

/-- A tree with one route. -/
def build (value : V) : List Segment → Node V
  | [] => ofValue value
  | s :: rest =>
    let n := empty.put s (fresh s value (build value rest))
    if s.isOptional then n.setValue value else n

/-- File a fresh branch for a segment and those after it. -/
def attach (n : Node V) (s : Segment) (rest : List Segment) (value : V) : Node V :=
  n.put s (fresh s value (build value rest))

/-! ## 3. Growing the tree -/

/-- The value of a node at an end of a segment that may be absent. -/
def fillFor (s : Segment) (value : V) (n : Node V) : Node V :=
  if s.isOptional then n.fillValue value else n

/-- Insert a path with its value. A name that differs stops it where it is found, and the children on
    the way there have been given the names of the path by then. -/
def grow (n : Node V) (value : V) : List Segment → Except (Stopped (Node V)) (Node V)
  | [] => .ok (n.setValue value)
  | s :: rest =>
    match n.child? s.key with
    | none => .ok (fillFor s value (n.attach s rest value))
    | some child =>
      match child.checkName s with
      | .error e => .error ⟨e, n⟩
      | .ok () =>
        match (child.adopt s).grow value rest with
        | .error stop => .error ⟨stop.reason, n.setChild s.key stop.left⟩
        | .ok below => .ok (fillFor s value (n.setChild s.key (fillFor s value below)))

/-- The tree with a path inserted, or what stops it. -/
def extend (n : Node V) (value : V) (path : List Segment) : Except RouteError (Node V) :=
  (n.grow value path).mapError Stopped.reason

/-- An extension goes along the path as the growth of the tree does. -/
theorem extend_step (n : Node V) (value : V) (s : Segment) (rest : List Segment) :
    n.extend value (s :: rest) = match n.child? s.key with
      | none => .ok (fillFor s value (n.attach s rest value))
      | some child => match child.checkName s with
        | .error e => .error e
        | .ok () => match (child.adopt s).extend value rest with
          | .error e => .error e
          | .ok below => .ok (fillFor s value (n.setChild s.key (fillFor s value below))) := by
  rw [extend, grow]
  cases n.child? s.key with
  | none => rfl
  | some child =>
    dsimp only
    cases child.checkName s with
    | error e => rfl
    | ok _ =>
      dsimp only [extend]
      cases (child.adopt s).grow value rest <;> rfl

theorem grow_eq_ok_iff {n n' : Node V} {value : V} {path : List Segment} :
    n.grow value path = .ok n' ↔ n.extend value path = .ok n' := by
  unfold extend
  cases n.grow value path with
  | error stop => exact iff_of_false (fun h => nomatch h) (fun h => nomatch h)
  | ok m =>
    exact ⟨fun h => congrArg Except.ok (Except.ok.inj h),
      fun h => congrArg Except.ok (Except.ok.inj h)⟩

/-- Insert a route: cut it, check its names, log it, and let the tree grow. -/
def insert (n : Node V) (segments : List Segment) (value : V) : Changed (Node V) :=
  let path := cutAfterCatchAll segments
  match n.checkNames path with
  | .error e => ⟨cutEvents segments, .error ⟨e, n⟩⟩
  | .ok () =>
    ⟨cutEvents segments ++ [.routeInserted (Segment.displayAll path)], n.grow value path⟩

/-- Without the check a tree is left with a new name when it is stopped. -/
example : ((empty.put (.literal "v1") (empty.put (.param ⟨"id", none, none⟩) (ofValue 0))).grow 1
      [.param ⟨"site", none, some "v1"⟩, .param ⟨"page", none, none⟩]).mapError
        (fun stop => (stop.reason, (stop.left.child? (.exact "v1")).map name))
    = .error (.nameConflict "id" "page", some (some "site")) := rfl

end RouteTree.Node
