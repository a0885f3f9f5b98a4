import TreeLint.Edit.Queue

namespace TreeLint

/-!
# Nested edits

Of two edits one of which lies below the other only the outer one can be made as it stands.

* `resolve` keeps the edits that lie below no other edit.
* A dropped edit is *absorbed* when the outer edit replaced its node later and the replacement
  already shows the inner edit (`Edit.carries`); the two do not disagree.
* Any other dropped edit is a *conflict*, and the outer edit wins.
-/

/-- Two edits of which the inner one was dropped. -/
structure Conflict where
  kept : Location
  discarded : Location
  deriving DecidableEq

/-- The replacement of `outer` was built on top of `inner`: it came later and holds the
    replacement of `inner`, or `inner` removes its node. -/
def Edit.carries (outer inner : Edit) : Bool :=
  match outer.action with
  | .remove => false
  | .replace node =>
    inner.queuedAt < outer.queuedAt &&
      match inner.action with
      | .replace fixed => node.holds fixed
      | .remove => true

/-- What becomes of the edits of a queue, each list in location order. -/
structure Sorting where
  kept : List Edit
  conflicts : List Conflict
  /-- Pairs of an inner location and the outer location that carries it. -/
  absorbed : List (Location × Location)

namespace Sorting

/-- No edit has been looked at. -/
def start : Sorting := ⟨[], [], []⟩

/-- The kept edit at a location. -/
def keptAt? (s : Sorting) (l : Location) : Option Edit := s.kept.find? (·.location = l)

/-- Decide on the next edit. Every edit that could enclose it has been decided on before. -/
def add (s : Sorting) (e : Edit) : Sorting :=
  match e.location.ancestors.findSome? s.keptAt? with
  | none => { s with kept := s.kept ++ [e] }
  | some outer =>
    if outer.carries e then
      { s with absorbed := s.absorbed ++ [(e.location, outer.location)] }
    else { s with conflicts := s.conflicts ++ [⟨outer.location, e.location⟩] }

end Sorting

/-- The edits that can be made together, and what became of the others. -/
structure Resolution where
  kept : EditQueue
  conflicts : List Conflict
  absorbed : List (Location × Location)

/-- Drop every edit that lies below another one. -/
def EditQueue.resolve (q : EditQueue) : Resolution :=
  let s := q.edits.foldl Sorting.add Sorting.start
  ⟨EditQueue.ofList s.kept, s.conflicts, s.absorbed⟩

end TreeLint
