import TreeLint.Diagnostic.Basic
import TreeLint.Edit.Resolution

namespace TreeLint

/-!
# Applying edits

`applyEdits` makes the edits of a queue to a tree: it resolves nested edits and rebuilds the tree
with those that are kept.

* An edit is made only while its node is structurally equal to the node it was queued for;
  otherwise it is *stale* and the search goes on below the node.
* The root cannot be removed: such an edit counts as stale.
* `Applied.statusOf` tells what became of the fix of a diagnostic.
* `applySuggestions` applies patches that were recorded earlier, the first one per location.
-/

/-- The result of rebuilding a part of a tree. -/
structure Rebuilt (α : Type) where
  result : α
  /-- Locations whose edits were made, in document order. -/
  applied : List Location
  /-- Locations whose nodes were not the ones that the edits were queued for. -/
  stale : List Location

mutual

/-- Rebuild the node at `l` with the edits of `q`; no result means that it is removed. -/
def rebuild (q : EditQueue) (l : Location) : Node → Rebuilt (Option Node)
  | n@⟨payload, span, cs⟩ =>
    if q.hasWithin l then
      match q.get? l with
      | some e =>
        if e.found == n then
          match e.action with
          | .replace node => ⟨some node, [l], []⟩
          | .remove => ⟨none, [l], []⟩
        else
          let below := rebuildAll q l 0 cs
          ⟨some ⟨payload, span, below.result⟩, below.applied, l :: below.stale⟩
      | none =>
        let below := rebuildAll q l 0 cs
        ⟨some ⟨payload, span, below.result⟩, below.applied, below.stale⟩
    else ⟨some n, [], []⟩

/-- Rebuild the children of the node at `l` from the one with index `i` on. -/
def rebuildAll (q : EditQueue) (l : Location) (i : Nat) : List Node → Rebuilt (List Node)
  | [] => ⟨[], [], []⟩
  | c :: cs =>
    let first := rebuild q (l.child i) c
    let rest := rebuildAll q l (i + 1) cs
    ⟨first.result.toList ++ rest.result, first.applied ++ rest.applied, first.stale ++ rest.stale⟩

end

/-- The result of applying the edits of a queue. -/
structure Applied where
  tree : Node
  /-- Locations whose edits were made, in document order. -/
  applied : List Location
  /-- Locations whose edits no longer matched the tree. -/
  stale : List Location
  conflicts : List Conflict
  /-- Pairs of an inner location and the outer location that carries it. -/
  absorbed : List (Location × Location)

/-- Resolve nested edits and make those that are kept. -/
def applyEdits (tree : Node) (q : EditQueue) : Applied :=
  let resolution := q.resolve
  let rebuilt := rebuild resolution.kept Location.root tree
  match rebuilt.result with
  | some result =>
    ⟨result, rebuilt.applied, rebuilt.stale, resolution.conflicts, resolution.absorbed⟩
  | none =>
    ⟨tree, rebuilt.applied.filter (· ≠ Location.root), Location.root :: rebuilt.stale,
      resolution.conflicts, resolution.absorbed⟩

namespace Applied

/-- Some edit was made. -/
def changed (a : Applied) : Bool := !a.applied.isEmpty

/-- The location whose edit stands for the edit at `l`. -/
def governing (a : Applied) (l : Location) : Location := (a.absorbed.lookup l).getD l

/-- What became of the fix of a diagnostic that was made for the tree before the edits. -/
def statusOf (a : Applied) (d : Diagnostic) : FixStatus :=
  if d.hasFix then
    let l := a.governing d.location.node
    if a.applied.contains l then .applied
    else if a.stale.contains l then .skipped
    else if a.conflicts.any (·.discarded = l) then .superseded
    else .available
  else .none

end Applied

/-- The queue of the first patch at each location. -/
def suggestionQueue (suggestions : List (Location × Patch)) : EditQueue :=
  suggestions.foldl
    (fun q (l, patch) =>
      if (q.get? l).isSome then q else q.push l patch.old (.replace patch.fixed))
    EditQueue.empty

/-- Apply recorded patches, the first one per location. -/
def applySuggestions (tree : Node) (suggestions : List (Location × Patch)) : Applied :=
  applyEdits tree (suggestionQueue suggestions)

end TreeLint
