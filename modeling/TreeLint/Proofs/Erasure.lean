import Mathlib
import TreeLint.Proofs.Application

namespace TreeLint

/-!
# Edits without spans

Structural equality is equality of bare trees. To see that something does not depend on spans it is
therefore enough that it can be done to bare trees: first done and then laid bare, or the other way
round, it comes to the same.

* `Edit.bare` and `EditQueue.bare` take the spans out of the nodes that edits remember and put in
  place.
* `EditQueue.bare_push`: the queue looks at locations only.
* `EditQueue.resolve_bare`: so does the resolution of nested edits, apart from the search for a
  structurally equal node.
* `applyEdits_bare` is the result for the edits of a pass. `rebuild_bare` is the induction over the
  tree.
-/

namespace Node

/-- Spans are erased node by node. -/
theorem bare_mk (payload : Payload) (span : Span) (cs : List Node) :
    bare ⟨payload, span, cs⟩ = ⟨payload, Span.zero, cs.map bare⟩ := by
  rw [bare, bareAll_eq]

/-- Erasing spans keeps payloads. -/
@[simp] theorem payload_bare (n : Node) : n.bare.payload = n.payload := by
  obtain ⟨payload, span, cs⟩ := n
  rw [bare_mk]

@[simp] theorem span_bare (n : Node) : n.bare.span = Span.zero := by
  obtain ⟨payload, span, cs⟩ := n
  rw [bare_mk]

/-- The children are erased as well. -/
@[simp] theorem children_bare (n : Node) : n.bare.children = n.children.map bare := by
  obtain ⟨payload, span, cs⟩ := n
  rw [bare_mk]

@[simp] theorem kind_bare (n : Node) : n.bare.kind = n.kind := congrArg Payload.kind n.payload_bare

@[simp] theorem commentText?_bare (n : Node) : n.bare.commentText? = n.commentText? := by
  unfold commentText?
  rw [payload_bare]

/-- A payload can be set before or after spans are erased. -/
@[simp] theorem bare_withPayload (n : Node) (payload : Payload) :
    (n.withPayload payload).bare = n.bare.withPayload payload := by
  obtain ⟨payload', span, cs⟩ := n
  simp only [withPayload, bare_mk]

/-- So can the children, which are erased too. -/
@[simp] theorem bare_withChildren (n : Node) (cs : List Node) :
    (n.withChildren cs).bare = n.bare.withChildren (cs.map bare) := by
  obtain ⟨payload, span, cs'⟩ := n
  simp only [withChildren, bare_mk]

/-- Erasing twice is erasing once. -/
@[simp] theorem bare_bare (n : Node) : n.bare.bare = n.bare := by
  induction n with
  | node payload span cs ih =>
    rw [bare_mk, bare_mk, List.map_map]
    exact congrArg _ (List.map_congr_left ih)

/-- Whether two trees are the same does not depend on their spans. -/
@[simp] theorem beq_bare (a b : Node) : (a.bare == b.bare) = (a == b) := by
  rw [Bool.eq_iff_iff, beq_iff_bare, beq_iff_bare, bare_bare, bare_bare]

/-- The search for a node does not look at spans. -/
@[simp] theorem holds_bare (n needle : Node) : n.bare.holds needle.bare = n.holds needle := by
  induction n with
  | node payload span cs ih =>
    have hany : holdsAny (cs.map bare) needle.bare = holdsAny cs needle := by
      induction cs with
      | nil => rfl
      | cons c cs ihcs =>
        rw [List.map_cons, holdsAny, holdsAny, ih c List.mem_cons_self,
          ihcs fun d hd => ih d (List.mem_cons_of_mem c hd)]
    have hself := beq_bare ⟨payload, span, cs⟩ needle
    rw [bare_mk] at hself ⊢
    rw [holds, holds, hself, hany]

end Node

/-! ### Queued edits -/

/-- The action with a bare node. -/
def EditAction.bare : EditAction → EditAction
  | replace node => replace node.bare
  | remove => remove

/-- What an erased action leaves is what the action leaves, erased. -/
theorem EditAction.result?_bare (action : EditAction) :
    action.bare.result? = action.result?.map Node.bare := by
  cases action with
  | replace node => rfl
  | remove => rfl

/-- The edit with bare nodes. -/
def Edit.bare (e : Edit) : Edit := { e with found := e.found.bare, action := e.action.bare }

/-- Insertion compares locations only. -/
theorem Edit.map_bare_insertWith (merge : Edit → Edit → Edit)
    (hmerge : ∀ old new, (merge old new).bare = merge old.bare new.bare) (e : Edit)
    (xs : List Edit) :
    (insertWith merge e xs).map bare = insertWith merge e.bare (xs.map bare) := by
  induction xs with
  | nil => rfl
  | cons x xs ih =>
    have hlocation : e.bare.location.compare x.bare.location = e.location.compare x.location := rfl
    rw [List.map_cons, insertWith, insertWith, hlocation]
    cases e.location.compare x.location with
    | lt => rfl
    | gt =>
      simp only [List.map_cons]
      rw [ih]
    | eq =>
      simp only [List.map_cons]
      rw [hmerge]

/-- Whether an edit carries another one does not depend on spans. -/
theorem Edit.carries_bare (outer inner : Edit) :
    outer.bare.carries inner.bare = outer.carries inner := by
  obtain ⟨l, found, action, time⟩ := outer
  obtain ⟨l', found', action', time'⟩ := inner
  cases action with
  | remove => rfl
  | replace node =>
    cases action' with
    | remove => rfl
    | replace fixed =>
      show (decide (time' < time) && node.bare.holds fixed.bare)
        = (decide (time' < time) && node.holds fixed)
      rw [Node.holds_bare]

namespace EditQueue

/-- The queue with bare nodes. -/
def bare (q : EditQueue) : EditQueue where
  edits := q.edits.map Edit.bare
  revision := q.revision
  sorted := List.pairwise_map.mpr q.sorted

/-- A push can be erased before or after. -/
theorem bare_push (q : EditQueue) (l : Location) (found : Node) (action : EditAction) :
    (q.push l found action).bare = q.bare.push l found.bare action.bare := by
  unfold bare push
  rw [mk.injEq]
  exact ⟨Edit.map_bare_insertWith overwrite (fun _ _ => rfl) _ q.edits, rfl⟩

/-- So can an insertion. -/
theorem bare_insert (q : EditQueue) (e : Edit) : (q.insert e).bare = q.bare.insert e.bare := by
  unfold bare insert
  rw [mk.injEq]
  exact ⟨Edit.map_bare_insertWith supplant (fun _ _ => rfl) e q.edits, rfl⟩

/-- A queue of erased edits is the erased queue. -/
theorem ofList_map_bare (edits : List Edit) :
    ofList (edits.map Edit.bare) = (ofList edits).bare := by
  unfold ofList
  rw [List.foldl_map]
  show edits.foldl (fun q e => q.insert e.bare) empty.bare = _
  exact List.foldl_hom bare fun q e => (bare_insert q e).symm

theorem isEmpty_bare (q : EditQueue) : q.bare.isEmpty = q.isEmpty := List.isEmpty_map

/-- The erased queue has the erased edit at every location. -/
theorem get?_bare (q : EditQueue) (l : Location) : q.bare.get? l = (q.get? l).map Edit.bare :=
  List.find?_map

/-- Where edits are queued does not depend on spans. -/
theorem hasWithin_bare (q : EditQueue) (l : Location) : q.bare.hasWithin l = q.hasWithin l := by
  show ((q.edits.map Edit.bare).find? _).any _ = _
  rw [List.find?_map, Option.any_map]
  rfl

end EditQueue

/-! ### Nested edits -/

namespace Sorting

/-- The sorted edits with bare nodes. -/
def bare (s : Sorting) : Sorting := { s with kept := s.kept.map Edit.bare }

/-- The erased sorting has kept the erased edits. -/
theorem keptAt?_bare (s : Sorting) : s.bare.keptAt? = fun l => (s.keptAt? l).map Edit.bare :=
  funext fun _ => List.find?_map

/-- A step of the sorting can be erased before or after: whether an edit is carried by another is a
    question of equality up to spans. -/
theorem add_bare (s : Sorting) (e : Edit) : s.bare.add e.bare = (s.add e).bare := by
  have houter : e.bare.location.ancestors.findSome? s.bare.keptAt?
      = (e.location.ancestors.findSome? s.keptAt?).map Edit.bare := by
    rw [keptAt?_bare, List.map_findSome?]
    rfl
  unfold add
  rw [houter]
  cases e.location.ancestors.findSome? s.keptAt? with
  | none => simp [bare]
  | some outer =>
    simp only [Option.map_some, Edit.carries_bare]
    split
    · rfl
    · rfl

end Sorting

/-- What becomes of nested edits does not depend on spans. -/
theorem EditQueue.resolve_bare (q : EditQueue) :
    q.bare.resolve = { q.resolve with kept := q.resolve.kept.bare } := by
  have hsort : q.bare.edits.foldl Sorting.add Sorting.start
      = (q.edits.foldl Sorting.add Sorting.start).bare := by
    unfold bare
    rw [List.foldl_map]
    show q.edits.foldl (fun s e => s.add e.bare) Sorting.start.bare = _
    exact List.foldl_hom Sorting.bare fun s e => Sorting.add_bare s e
  unfold resolve
  rw [hsort]
  simp only [Sorting.bare, ofList_map_bare]

/-! ### Applying edits -/

/-- The rebuilt part with another result. -/
def Rebuilt.map {α β : Type} (f : α → β) (r : Rebuilt α) : Rebuilt β :=
  { r with result := f r.result }

/-- **The induction over the tree.** Rebuilding a node does not depend on spans. -/
theorem rebuild_bare (q : EditQueue) (l : Location) (n : Node) :
    rebuild q.bare l n.bare = (rebuild q l n).map (Option.map Node.bare) := by
  induction n generalizing l with
  | node payload span cs ih =>
    have hbelow : ∀ i, rebuildAll q.bare l i (cs.map Node.bare)
        = (rebuildAll q l i cs).map (List.map Node.bare) := by
      induction cs with
      | nil => exact fun i => rfl
      | cons c cs ihcs =>
        intro i
        rw [List.map_cons, rebuildAll, rebuildAll, ih c List.mem_cons_self,
          ihcs fun d hd => ih d (List.mem_cons_of_mem c hd)]
        simp [Rebuilt.map, Option.toList_map]
    rw [Node.bare_mk]
    -- Edits keep their locations, so both queues have an edit here or neither has one.
    by_cases hwithin : q.hasWithin l = true
    · cases hget : q.get? l with
      | none =>
        have hget' : q.bare.get? l = none := by rw [q.get?_bare, hget]; rfl
        rw [rebuild_of_none hget hwithin,
          rebuild_of_none hget' ((q.hasWithin_bare l).trans hwithin), hbelow]
        simp [Rebuilt.map, Node.bare_mk]
      | some e =>
        have hget' : q.bare.get? l = some e.bare := by rw [q.get?_bare, hget]; rfl
        -- The guard against stale edits lets the same edits through: it compares up to structure.
        have hfound := Node.beq_bare e.found ⟨payload, span, cs⟩
        rw [Node.bare_mk] at hfound
        by_cases hfresh : (e.found == ⟨payload, span, cs⟩) = true
        · rw [rebuild_of_fresh hget hfresh, rebuild_of_fresh hget' (hfound.trans hfresh)]
          show Rebuilt.mk e.action.bare.result? [l] [] = _
          rw [EditAction.result?_bare]
          rfl
        · have hstale := Bool.eq_false_iff.mpr hfresh
          rw [rebuild_of_stale hget hstale, rebuild_of_stale hget' (hfound.trans hstale), hbelow]
          simp [Rebuilt.map, Node.bare_mk]
    · have hwithout := Bool.eq_false_iff.mpr hwithin
      rw [rebuild_of_not_hasWithin hwithout,
        rebuild_of_not_hasWithin ((q.hasWithin_bare l).trans hwithout)]
      simp [Rebuilt.map, Node.bare_mk]

/-- **Applying edits does not depend on spans.** -/
theorem applyEdits_bare (tree : Node) (q : EditQueue) :
    applyEdits tree.bare q.bare
      = { applyEdits tree q with tree := (applyEdits tree q).tree.bare } := by
  unfold applyEdits
  simp only [EditQueue.resolve_bare, rebuild_bare, Rebuilt.map]
  -- There is no result if the root is to be removed; then both trees stay as they are.
  cases (rebuild q.resolve.kept Location.root tree).result with
  | none => rfl
  | some result => rfl

end TreeLint
