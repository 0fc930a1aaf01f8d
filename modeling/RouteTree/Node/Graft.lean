import RouteTree.Node.Basic

/-!
# Grafting a subtree

A whole subtree is attached at the end of a path, unless something is there already. The nodes on the
way that have no name take those of the path, and they keep them when the end of the path turns out to
be in use.
-/

namespace RouteTree.Node

variable {V : Type}

/-- Attach `subtree` at the end of a path. The second part of the answer says whether it was attached;
    it was not if the end of the path is in use. -/
def graft (n subtree : Node V) : List Segment → Except RouteError (Node V × Bool)
  | [] => .ok (if n.isUsed then (n, false) else (subtree, true))
  | [last] =>
    match n.child? last.key with
    | none => .ok (n.put last subtree, true)
    | some child =>
      match child.checkName last with
      | .error e => .error e
      | .ok () =>
        if child.isUsed then .ok (n.setChild last.key (child.adopt last), false)
        else .ok (n.put last subtree, true)
  | s :: next :: rest =>
    match n.child? s.key with
    | none =>
      match empty.graft subtree (next :: rest) with
      | .error e => .error e
      | .ok (below, _) => .ok (n.put s below, true)
    | some child =>
      match child.checkName s with
      | .error e => .error e
      | .ok () =>
        match (child.adopt s).graft subtree (next :: rest) with
        | .error e => .error e
        | .ok (below, grafted) => .ok (n.setChild s.key below, grafted)

end RouteTree.Node
