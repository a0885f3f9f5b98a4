import TreeLint.Tree.Node

namespace TreeLint

/-!
# Queued edits

A pass never changes its tree. It queues edits, at most one per location, and a later step applies
them together.

* `Edit` replaces or removes the node at a location. It remembers the node that stood there when
  the pass began, and the time of its latest change.
* `EditQueue` keeps the edits in increasing order of their locations; the order is part of the
  type. Its `revision` counts the pushes.
* `EditQueue.push` changes the action of an edit that is queued already and keeps what the edit
  remembers of the tree.
* `EditQueue.ofList` gathers edits into a new queue whose count of pushes starts again at 0.
-/

/-- What an edit does to its node. -/
inductive EditAction where
  | replace (node : Node)
  | remove

/-- A queued edit. -/
structure Edit where
  location : Location
  /-- The node at the location when the edit was first queued: the guard against stale edits. -/
  found : Node
  action : EditAction
  /-- The revision of the queue after the latest push at the location. -/
  queuedAt : Nat

namespace Edit

/-- Put `e` into a list that is ordered by location. An edit of the same location becomes
    `merge old e`. -/
def insertWith (merge : Edit → Edit → Edit) (e : Edit) : List Edit → List Edit
  | [] => [e]
  | x :: xs =>
    match e.location.compare x.location with
    | .lt => e :: x :: xs
    | .gt => x :: insertWith merge e xs
    | .eq => merge x e :: xs

/-- An insertion brings in no location but that of the new edit. -/
theorem mem_insertWith_location {merge : Edit → Edit → Edit}
    (hmerge : ∀ old new, (merge old new).location = old.location) {e y : Edit} {xs : List Edit}
    (h : y ∈ insertWith merge e xs) :
    y.location = e.location ∨ ∃ x ∈ xs, y.location = x.location := by
  induction xs with
  | nil => simp only [insertWith, List.mem_singleton] at h; exact .inl (h ▸ rfl)
  | cons x xs ih =>
    rw [insertWith] at h
    split at h
    · rcases List.mem_cons.mp h with rfl | h
      · exact .inl rfl
      · exact .inr ⟨y, h, rfl⟩
    · rcases List.mem_cons.mp h with rfl | h
      · exact .inr ⟨y, List.mem_cons_self, rfl⟩
      · rcases ih h with h | ⟨z, hz, h⟩
        · exact .inl h
        · exact .inr ⟨z, List.mem_cons_of_mem _ hz, h⟩
    · rcases List.mem_cons.mp h with rfl | h
      · exact .inr ⟨x, List.mem_cons_self, hmerge x e⟩
      · exact .inr ⟨y, List.mem_cons_of_mem _ h, rfl⟩

/-- Insertion keeps a list ordered by location. -/
theorem pairwise_insertWith (merge : Edit → Edit → Edit)
    (hmerge : ∀ old new, (merge old new).location = old.location) (e : Edit) {xs : List Edit}
    (h : xs.Pairwise (·.location < ·.location)) :
    (insertWith merge e xs).Pairwise (·.location < ·.location) := by
  induction xs with
  | nil => exact List.pairwise_singleton _ _
  | cons x xs ih =>
    obtain ⟨hx, hxs⟩ := List.pairwise_cons.mp h
    rw [insertWith]
    split
    · rename_i hlt
      refine List.pairwise_cons.mpr ⟨fun y hy => ?_, h⟩
      rcases List.mem_cons.mp hy with rfl | hy
      · exact Location.compare_eq_lt_iff.mp hlt
      · exact Location.lt_trans (Location.compare_eq_lt_iff.mp hlt) (hx y hy)
    · rename_i hgt
      refine List.pairwise_cons.mpr ⟨fun y hy => ?_, ih hxs⟩
      rcases mem_insertWith_location hmerge hy with h | ⟨z, hz, h⟩
      · exact h ▸ Location.compare_eq_gt_iff.mp hgt
      · exact h ▸ hx z hz
    · refine List.pairwise_cons.mpr ⟨fun y hy => ?_, hxs⟩
      rw [hmerge]
      exact hx y hy

end Edit

/-- The edits of one pass, at most one per location, in increasing order of locations. -/
structure EditQueue where
  edits : List Edit
  /-- The number of pushes so far. -/
  revision : Nat
  sorted : edits.Pairwise (·.location < ·.location)

namespace EditQueue

/-- The queue without edits. -/
def empty : EditQueue := ⟨[], 0, List.Pairwise.nil⟩

def size (q : EditQueue) : Nat := q.edits.length

def isEmpty (q : EditQueue) : Bool := q.edits.isEmpty

/-- The edit at a location. -/
def get? (q : EditQueue) (l : Location) : Option Edit := q.edits.find? (·.location = l)

/-- The old edit with the action and the time of the new one. -/
def overwrite (old new : Edit) : Edit := { old with action := new.action, queuedAt := new.queuedAt }

/-- Queue `action` at `l`, where `found` stands. An edit that is queued there already keeps
    what it remembers and gets the new action. -/
def push (q : EditQueue) (l : Location) (found : Node) (action : EditAction) : EditQueue where
  edits := Edit.insertWith overwrite ⟨l, found, action, q.revision + 1⟩ q.edits
  revision := q.revision + 1
  sorted := Edit.pairwise_insertWith overwrite (fun _ _ => rfl) _ q.sorted

/-- Take the edit at a location out of the queue. -/
def erase (q : EditQueue) (l : Location) : EditQueue where
  edits := q.edits.filter (·.location ≠ l)
  revision := q.revision
  sorted := q.sorted.filter _

/-- Some edit is at `l` or below it. The first edit whose location is not smaller than `l` tells:
    in lexicographic order the locations that begin with `l` stand together, `l` first. -/
def hasWithin (q : EditQueue) (l : Location) : Bool :=
  (q.edits.find? fun e => !(decide (e.location < l))).any (l.contains ·.location)

/-- The new edit, in the place of the old one. -/
def supplant (old new : Edit) : Edit := { new with location := old.location }

/-- Add an edit as it is, in the place of one at the same location; the count of pushes stays. -/
def insert (q : EditQueue) (e : Edit) : EditQueue where
  edits := Edit.insertWith supplant e q.edits
  revision := q.revision
  sorted := Edit.pairwise_insertWith supplant (fun _ _ => rfl) _ q.sorted

/-- The queue of the given edits. A later edit takes the place of an earlier one at the same
    location, and no push counts as made. -/
def ofList (edits : List Edit) : EditQueue := edits.foldl insert empty

end EditQueue

end TreeLint
