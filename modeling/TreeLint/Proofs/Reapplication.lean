import Mathlib
import TreeLint.Proofs.QueueOrder

namespace TreeLint

/-!
# Applying patches twice

Patches only replace nodes, so what was applied once can be applied again without harm: a location
leads to the same place afterwards, and what stands there is the replacement or was never touched.

* `EditQueue.OnlyReplaces`: no edit of the queue removes its node. Queues made of patches are such
  (`onlyReplaces_suggestionQueue`).
* `result_rebuild_at` says what rebuilding makes of a node with an edit: below it nothing is queued.
* `rebuild_again` is the induction over the tree, with `rebuildAll_again` for the children of a
  node, and `applySuggestions_again` the result.

No bound on the number of children is needed. If several children have one location, each of them
is replaced or left alone by itself.
-/

/-- No edit of the queue removes its node. -/
def EditQueue.OnlyReplaces (q : EditQueue) : Prop := ∀ e ∈ q.edits, e.action ≠ .remove

section Rebuild

variable {q : EditQueue} {l : Location}

/-- Without removals every node is rebuilt to a node. -/
theorem exists_result_rebuild (hreplaces : q.OnlyReplaces) (l : Location) (n : Node) :
    ∃ m, (rebuild q l n).result = some m := by
  cases he : q.get? l with
  | some e =>
    by_cases hfresh : (e.found == n) = true
    · rw [rebuild_of_fresh he hfresh]
      have haction := hreplaces e (EditQueue.get?_eq_some_iff.mp he).1
      cases hact : e.action with
      | replace node => exact ⟨node, rfl⟩
      | remove => exact absurd hact haction
    · rw [rebuild_of_stale he (Bool.eq_false_iff.mpr hfresh)]
      exact ⟨_, rfl⟩
  | none =>
    by_cases hwithin : q.hasWithin l = true
    · rw [rebuild_of_none he hwithin]
      exact ⟨_, rfl⟩
    · rw [rebuild_of_not_hasWithin (Bool.eq_false_iff.mpr hwithin)]
      exact ⟨_, rfl⟩

/-- Children without edits at or below them stay as they are. -/
theorem result_rebuildAll_of_not_hasWithin (h : ∀ j, q.hasWithin (l.child j) = false) (i : Nat)
    (cs : List Node) : (rebuildAll q l i cs).result = cs := by
  induction cs generalizing i with
  | nil => rfl
  | cons c cs ih =>
    rw [rebuildAll, rebuild_of_not_hasWithin (h i)]
    show c :: (rebuildAll q l (i + 1) cs).result = c :: cs
    rw [ih]

/-- **A node with an edit.** Where no edits are nested, the edit is made or the node stays. -/
theorem result_rebuild_at (hunnested : q.Unnested) {e : Edit} (he : q.get? l = some e) (n : Node) :
    (rebuild q l n).result = if e.found == n then e.action.result? else some n := by
  by_cases hfresh : (e.found == n) = true
  · rw [rebuild_of_fresh he hfresh, if_pos hfresh]
  · have hbelow : ∀ j, q.hasWithin (l.child j) = false := fun j =>
      EditQueue.hasWithin_eq_false_iff.mpr fun m hm =>
        hunnested.get?_below he (Location.isStrictAncestorOf_of_child_contains hm)
    rw [rebuild_of_stale he (Bool.eq_false_iff.mpr hfresh), if_neg hfresh,
      result_rebuildAll_of_not_hasWithin hbelow]
    exact congrArg some n.withChildren_children

/-- Children can be rebuilt again if each of them can: none goes, so that each keeps its index. -/
theorem rebuildAll_again (hreplaces : q.OnlyReplaces) {cs : List Node}
    (hcs : ∀ c ∈ cs, ∀ l m, (rebuild q l c).result = some m → (rebuild q l m).result = some m)
    (i : Nat) :
    (rebuildAll q l i (rebuildAll q l i cs).result).result = (rebuildAll q l i cs).result := by
  induction cs generalizing i with
  | nil => rfl
  | cons c cs ih =>
    obtain ⟨m, hm⟩ := exists_result_rebuild hreplaces (l.child i) c
    have hfirst := hcs c List.mem_cons_self (l.child i) m hm
    have hrest := ih (fun d hd => hcs d (List.mem_cons_of_mem c hd)) (i + 1)
    have hcons : (rebuildAll q l i (c :: cs)).result
        = m :: (rebuildAll q l (i + 1) cs).result := by
      rw [rebuildAll, hm]
      rfl
    rw [hcons, rebuildAll, hfirst, hrest]
    rfl

/-- **Rebuilding again changes nothing**, if no edits are nested and none removes its node. -/
theorem rebuild_again (hunnested : q.Unnested) (hreplaces : q.OnlyReplaces) {n m : Node}
    (h : (rebuild q l n).result = some m) : (rebuild q l m).result = some m := by
  induction n generalizing l m with
  | node payload span cs ih =>
    -- No edits are nested, so a node has an edit or edits below it, never both.
    cases he : q.get? l with
    | some e =>
      rw [result_rebuild_at hunnested he] at h ⊢
      split
      · -- The edit is made once more, so it was made the first time.
        rename_i hagain
        split at h
        · exact h
        · rename_i hstale
          rw [Option.some.inj h] at hstale
          exact absurd hagain hstale
      · rfl
    | none =>
      by_cases hwithin : q.hasWithin l = true
      · rw [rebuild_of_none he hwithin] at h ⊢
        obtain rfl := Option.some.inj h
        have hchildren : (rebuildAll q l 0 (rebuildAll q l 0 cs).result).result
            = (rebuildAll q l 0 cs).result :=
          rebuildAll_again hreplaces (fun c hc l m => ih c hc) 0
        show some (Node.mk payload span
          (rebuildAll q l 0 (rebuildAll q l 0 cs).result).result) = _
        rw [hchildren]
      · rw [rebuild_of_not_hasWithin (Bool.eq_false_iff.mpr hwithin)]

end Rebuild

namespace EditQueue

variable {q : EditQueue}

theorem OnlyReplaces.kept (h : q.OnlyReplaces) : q.resolve.kept.OnlyReplaces :=
  fun e he => h e (mem_kept_resolve.mp he).1

/-- Without removals the new tree is the root as it is rebuilt. -/
theorem OnlyReplaces.result_rebuild_root (h : q.OnlyReplaces) (tree : Node) :
    (rebuild q.resolve.kept Location.root tree).result = some (applyEdits tree q).tree := by
  obtain ⟨result, hresult⟩ := exists_result_rebuild h.kept Location.root tree
  unfold applyEdits
  simp only [hresult]

/-- A patch is queued as a replacement. -/
theorem OnlyReplaces.suggest (h : q.OnlyReplaces) (s : Location × Patch) :
    (q.suggest s).OnlyReplaces := by
  unfold EditQueue.suggest
  split
  · exact h
  · intro e he
    rw [mem_edits_iff, get?_push] at he
    split at he
    · rw [← Option.some.inj he]
      exact EditAction.noConfusion
    · exact h e (get?_eq_some_iff.mp he).1

end EditQueue

/-- Patches remove no nodes. -/
theorem onlyReplaces_suggestionQueue (ss : List (Location × Patch)) :
    (suggestionQueue ss).OnlyReplaces := by
  rw [suggestionQueue_eq]
  refine List.foldlRecOn ss EditQueue.suggest ?_ fun q hq s _ => hq.suggest s
  exact fun e he => absurd he List.not_mem_nil

/-- **Applying patches twice is the same as once.** For every tree and every list of patches, also
    at locations that repeat, lie below one another, hold other nodes or address none: applying the
    list to the tree that it gave leaves that tree as it is, spans included. -/
theorem applySuggestions_again (tree : Node) (suggestions : List (Location × Patch)) :
    (applySuggestions (applySuggestions tree suggestions).tree suggestions).tree
      = (applySuggestions tree suggestions).tree := by
  have hreplaces := onlyReplaces_suggestionQueue suggestions
  have hfirst := hreplaces.result_rebuild_root tree
  have hsecond := hreplaces.result_rebuild_root (applySuggestions tree suggestions).tree
  have hagain := rebuild_again (EditQueue.unnested_kept_resolve _) hreplaces.kept hfirst
  exact Option.some.inj (hsecond.symm.trans hagain)

end TreeLint
