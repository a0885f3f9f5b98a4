import Mathlib
import TreeLint.Edit.Application
import TreeLint.Proofs.Resolution
import TreeLint.Proofs.Substitution

namespace TreeLint

/-!
# Applying edits is substitution

`rebuild` skips every part of the tree that has no edit in it, and it works on the edits that
resolution has kept. What it computes is the plain substitution of `Node.substitute`.

* An edit is *fresh* for a tree when its location addresses a node that is structurally equal to the
  one it remembers (`Edit.IsFresh`), and *stale* when the node there is another one
  (`Edit.IsStale`).
* `result_rebuild_of_withinReach` and `mem_rebuild` describe the rebuilding of a part of the tree,
  the latter by the edits of a queue without nested edits. Only the nodes above an edit have to be
  addressable for the first (`EditQueue.WithinReach`).
* `applyEdits_eq_substitute` describes the application of any queue: of its outermost edits the
  fresh ones are made, and no others. A fresh removal of the root is refused.
-/

/-! ### Fresh and stale edits -/

namespace Edit

/-- The node that the edit was queued for still stands at its location. -/
def IsFresh (e : Edit) (tree : Node) : Prop :=
  ∃ n, tree.get? e.location = some n ∧ (e.found == n) = true

/-- Another node stands at the location of the edit. -/
def IsStale (e : Edit) (tree : Node) : Prop :=
  ∃ n, tree.get? e.location = some n ∧ (e.found == n) = false

instance (e : Edit) (tree : Node) : Decidable (e.IsFresh tree) :=
  decidable_of_iff ((tree.get? e.location).any (e.found == ·) = true) <| by
    rw [Option.any_eq_true]
    rfl

instance (e : Edit) (tree : Node) : Decidable (e.IsStale tree) :=
  decidable_of_iff ((tree.get? e.location).any (fun n => !(e.found == n)) = true) <| by
    rw [Option.any_eq_true]
    simp [IsStale]

variable {e : Edit} {tree n : Node}

/-- An edit is fresh if its node is still what stands at its location. -/
theorem isFresh_iff_of_get? (h : tree.get? e.location = some n) :
    e.IsFresh tree ↔ (e.found == n) = true := by
  unfold IsFresh
  rw [h]
  simp

/-- It is stale if something else does. -/
theorem isStale_iff_of_get? (h : tree.get? e.location = some n) :
    e.IsStale tree ↔ (e.found == n) = false := by
  unfold IsStale
  rw [h]
  simp

end Edit

namespace EditQueue

/-- The action queued at a location. -/
def actionAt (q : EditQueue) (l : Location) : Option EditAction := (q.get? l).map (·.action)

theorem actionAt_of_get? {q : EditQueue} {l : Location} {e : Edit} (h : q.get? l = some e) :
    q.actionAt l = some e.action := by
  rw [actionAt, h, Option.map_some]

theorem actionAt_of_get?_none {q : EditQueue} {l : Location} (h : q.get? l = none) :
    q.actionAt l = none := by
  rw [actionAt, h, Option.map_none]

/-- The action queued at a location, if its edit is fresh. -/
def freshAction (q : EditQueue) (tree : Node) (l : Location) : Option EditAction :=
  (q.get? l).bind fun e => if e.IsFresh tree then some e.action else none

/-- The queue asks for the removal of the root, and the root is still the node it asked it for. -/
def RemovesRoot (q : EditQueue) (tree : Node) : Prop :=
  ∃ e, q.get? Location.root = some e ∧ e.IsFresh tree ∧ e.action = .remove

/-- No edit of the queue lies below another one. -/
def Unnested (q : EditQueue) : Prop := ∀ e ∈ q.edits, q.IsOutermost e.location

/-- A word can count the children of every node that lies strictly above an edit of the queue. -/
def WithinReach (q : EditQueue) (tree : Node) : Prop :=
  ∀ e ∈ q.edits, ∀ l n, l.isStrictAncestorOf e.location = true → tree.get? l = some n →
    n.children.length ≤ 2 ^ 32

/-- Resolution keeps the outermost edits only, so none of them lies below another. -/
theorem unnested_kept_resolve (q : EditQueue) : q.resolve.kept.Unnested := by
  intro b hb a ha
  exact (mem_kept_resolve.mp hb).2 a (mem_kept_resolve.mp ha).1

end EditQueue

/-- In a tree whose nodes can all be addressed the edits of every queue are within reach. -/
theorem Node.Addressable.withinReach {tree : Node} (h : tree.Addressable) (q : EditQueue) :
    q.WithinReach tree :=
  fun _ _ _ _ _ hn => (h.of_mem (Node.mem_parts_of_get? hn)).children_length

/-! ### Rebuilding a part of the tree -/

section Rebuild

variable {q : EditQueue} {l : Location}

/-- The children are rebuilt one by one, and their results, applied edits and stale edits are joined
    in order. -/
theorem rebuildAll_eq (q : EditQueue) (l : Location) (i : Nat) (cs : List Node) :
    rebuildAll q l i cs
      = ⟨(cs.zipIdx i).flatMap fun p => (rebuild q (l.child p.2) p.1).result.toList,
          (cs.zipIdx i).flatMap fun p => (rebuild q (l.child p.2) p.1).applied,
          (cs.zipIdx i).flatMap fun p => (rebuild q (l.child p.2) p.1).stale⟩ := by
  induction cs generalizing i with
  | nil => rfl
  | cons c cs ih =>
    rw [rebuildAll, ih]
    rfl

/-- A part without edits stays as it is. -/
theorem rebuild_of_not_hasWithin {n : Node} (h : q.hasWithin l = false) :
    rebuild q l n = ⟨some n, [], []⟩ := by
  obtain ⟨payload, span, cs⟩ := n
  rw [rebuild, h]
  rfl

/-- At a location with a fresh edit the action takes effect and nothing below is looked at. -/
theorem rebuild_of_fresh {n : Node} {e : Edit} (he : q.get? l = some e)
    (hfresh : (e.found == n) = true) : rebuild q l n = ⟨e.action.result?, [l], []⟩ := by
  obtain ⟨payload, span, cs⟩ := n
  rw [rebuild, if_pos (EditQueue.hasWithin_of_get? he), he]
  simp only [hfresh, if_true]
  cases e.action <;> rfl

/-- At a location with a stale edit the children are rebuilt and the edit is noted. -/
theorem rebuild_of_stale {n : Node} {e : Edit} (he : q.get? l = some e)
    (hstale : (e.found == n) = false) :
    rebuild q l n
      = ⟨some ⟨n.payload, n.span, (rebuildAll q l 0 n.children).result⟩,
          (rebuildAll q l 0 n.children).applied, l :: (rebuildAll q l 0 n.children).stale⟩ := by
  obtain ⟨payload, span, cs⟩ := n
  rw [rebuild, if_pos (EditQueue.hasWithin_of_get? he), he]
  simp only [hstale, Bool.false_eq_true, if_false]

/-- At a location without an edit, but with some below, the children are rebuilt. -/
theorem rebuild_of_none {n : Node} (he : q.get? l = none) (h : q.hasWithin l = true) :
    rebuild q l n
      = ⟨some ⟨n.payload, n.span, (rebuildAll q l 0 n.children).result⟩,
          (rebuildAll q l 0 n.children).applied, (rebuildAll q l 0 n.children).stale⟩ := by
  obtain ⟨payload, span, cs⟩ := n
  rw [rebuild, if_pos h, he]

/-- Where no edit lies at or below a node, there is nothing to substitute. -/
theorem substitute_of_not_hasWithin {tree n : Node} (h : q.hasWithin l = false) :
    n.substitute (q.freshAction tree) l = some n := by
  refine Node.substitute_eq_some_self n ?_
  intro m hm
  simp [EditQueue.freshAction, EditQueue.hasWithin_eq_false_iff.mp h _ hm]

/-- **Rebuilding is substitution.** Pruning and staleness make no difference to the result. -/
theorem result_rebuild_of_withinReach {tree : Node} (hreach : q.WithinReach tree) {n : Node}
    (hn : tree.get? l = some n) :
    (rebuild q l n).result = n.substitute (q.freshAction tree) l := by
  induction n generalizing l with
  | node payload span cs ih =>
    have hcs : (rebuildAll q l 0 cs).result
        = Node.substituteAll (q.freshAction tree) l 0 cs := by
      rw [rebuildAll_eq, Node.substituteAll_eq]
      refine List.flatMap_congr ?_
      intro p hp
      by_cases hwithin : q.hasWithin (l.child p.2) = true
      · -- Some edit lies at or below the child, so the index of the child fits a word.
        obtain ⟨e, he, hc⟩ := EditQueue.hasWithin_iff.mp hwithin
        have hle := hreach e he l _ (Location.isStrictAncestorOf_of_child_contains hc) hn
        have hget : cs[p.2]? = some p.1 := List.mem_zipIdx_iff_getElem?.mp hp
        have hlt : p.2 < cs.length := (List.getElem?_eq_some_iff.mp hget).1
        have hchild := Node.get?_child_of_get? (lt_of_lt_of_le hlt hle) hn hget
        rw [ih p.1 (List.fst_mem_of_mem_zipIdx hp) hchild]
      · have hwithin := Bool.eq_false_iff.mpr hwithin
        rw [rebuild_of_not_hasWithin hwithin, substitute_of_not_hasWithin hwithin]
    -- At the node itself a fresh edit acts, a stale one does not.
    cases he : q.get? l with
    | some e =>
      obtain ⟨-, hloc⟩ := EditQueue.get?_eq_some_iff.mp he
      have hfresh := Edit.isFresh_iff_of_get? (e := e) (hloc ▸ hn)
      by_cases hf : (e.found == ⟨payload, span, cs⟩) = true
      · have hact : q.freshAction tree l = some e.action := by
          simp [EditQueue.freshAction, he, hfresh.mpr hf]
        rw [rebuild_of_fresh he hf, Node.substitute_of_some hact]
      · have hact : q.freshAction tree l = none := by
          simp [EditQueue.freshAction, he, mt hfresh.mp hf]
        rw [rebuild_of_stale he (Bool.not_eq_true _ ▸ hf), Node.substitute_of_none hact, hcs]
    | none =>
      have hact : q.freshAction tree l = none := by simp [EditQueue.freshAction, he]
      by_cases hwithin : q.hasWithin l = true
      · rw [rebuild_of_none he hwithin, Node.substitute_of_none hact, hcs]
      · have hwithin := Bool.eq_false_iff.mpr hwithin
        rw [rebuild_of_not_hasWithin hwithin, substitute_of_not_hasWithin hwithin]

/-- Rebuilding a part of an addressable tree is substituting the fresh actions. -/
theorem result_rebuild {tree : Node} (htree : tree.Addressable) {n : Node} (q : EditQueue)
    (hn : tree.get? l = some n) :
    (rebuild q l n).result = n.substitute (q.freshAction tree) l :=
  result_rebuild_of_withinReach (htree.withinReach q) hn

/-- The edits of a class `S` below each child are those of the class strictly below the node, if
    edits of the class address nodes of the tree. -/
theorem mem_flatMap_children {tree n : Node} (hn : tree.get? l = some n) {S : Edit → Prop}
    (hS : ∀ e, S e → ∃ x, tree.get? e.location = some x) {g : Node × Nat → List Location}
    (hg : ∀ p ∈ n.children.zipIdx, ∀ m,
      m ∈ g p ↔ (l.child p.2).contains m = true ∧ ∃ e, q.get? m = some e ∧ S e)
    (m : Location) :
    m ∈ n.children.zipIdx.flatMap g ↔
      l.isStrictAncestorOf m = true ∧ ∃ e, q.get? m = some e ∧ S e := by
  rw [List.mem_flatMap]
  constructor
  · rintro ⟨p, hp, hm⟩
    obtain ⟨hc, hSm⟩ := (hg p hp m).mp hm
    exact ⟨Location.isStrictAncestorOf_of_child_contains hc, hSm⟩
  · rintro ⟨hlm, e, he, hSe⟩
    obtain ⟨-, hloc⟩ := EditQueue.get?_eq_some_iff.mp he
    obtain ⟨x, hx⟩ := hS e hSe
    rw [hloc] at hx
    obtain ⟨p, hp, hc⟩ := Node.exists_mem_zipIdx_of_isSome hn hlm (by rw [hx]; rfl)
    exact ⟨p, hp, (hg p hp m).mpr ⟨hc, e, he, hSe⟩⟩

/-- An edit at or below a node is one of the node itself or lies strictly below it. -/
theorem found_within_iff {S : Edit → Prop} {m : Location} :
    (l.contains m = true ∧ ∃ e, q.get? m = some e ∧ S e) ↔
      (m = l ∧ ∃ e, q.get? l = some e ∧ S e) ∨
        (l.isStrictAncestorOf m = true ∧ ∃ e, q.get? m = some e ∧ S e) := by
  constructor
  · rintro ⟨hc, h⟩
    by_cases hlm : l = m
    · subst hlm
      exact .inl ⟨rfl, h⟩
    · exact .inr ⟨Location.isStrictAncestorOf_iff.mpr ⟨hc, hlm⟩, h⟩
  · rintro (⟨rfl, h⟩ | ⟨hlm, h⟩)
    · exact ⟨Location.contains_self m, h⟩
    · exact ⟨Location.contains_of_isStrictAncestorOf hlm, h⟩

/-- Below an edit of a queue without nested edits there are no others. -/
theorem EditQueue.Unnested.get?_below (hq : q.Unnested) {e : Edit} (he : q.get? l = some e)
    {m : Location} (hlm : l.isStrictAncestorOf m = true) : q.get? m = none := by
  obtain ⟨hmem, rfl⟩ := EditQueue.get?_eq_some_iff.mp he
  rw [EditQueue.get?_eq_none_iff]
  rintro d hd rfl
  exact absurd (hq d hd e hmem) (by simp [hlm])

/-- **Made and skipped.** Of a queue without nested edits exactly the fresh edits at and below a
    node are made, and exactly the stale ones are noted. -/
theorem mem_rebuild {tree : Node} (htree : tree.Addressable) (hq : q.Unnested) {n : Node}
    (hn : tree.get? l = some n) (m : Location) :
    (m ∈ (rebuild q l n).applied ↔
        l.contains m = true ∧ ∃ e, q.get? m = some e ∧ e.IsFresh tree) ∧
      (m ∈ (rebuild q l n).stale ↔
        l.contains m = true ∧ ∃ e, q.get? m = some e ∧ e.IsStale tree) := by
  induction n generalizing l m with
  | node payload span cs ih =>
    have hchild : ∀ p ∈ cs.zipIdx, ∀ k, _ := fun p hp =>
      ih p.1 (List.fst_mem_of_mem_zipIdx hp) (Node.get?_child_of_mem_zipIdx htree hn hp).2
    have happlied : m ∈ (rebuildAll q l 0 cs).applied ↔
        l.isStrictAncestorOf m = true ∧ ∃ e, q.get? m = some e ∧ e.IsFresh tree := by
      rw [rebuildAll_eq]
      exact mem_flatMap_children hn (fun e ⟨x, hx, _⟩ => ⟨x, hx⟩)
        (fun p hp k => (hchild p hp k).1) m
    have hstale : m ∈ (rebuildAll q l 0 cs).stale ↔
        l.isStrictAncestorOf m = true ∧ ∃ e, q.get? m = some e ∧ e.IsStale tree := by
      rw [rebuildAll_eq]
      exact mem_flatMap_children hn (fun e ⟨x, hx, _⟩ => ⟨x, hx⟩)
        (fun p hp k => (hchild p hp k).2) m
    -- Where nothing is queued below `l` the children contribute nothing.
    have hnothing : (l.isStrictAncestorOf m = true → q.get? m = none) →
        m ∉ (rebuildAll q l 0 cs).applied ∧ m ∉ (rebuildAll q l 0 cs).stale := by
      intro hnone
      rw [happlied, hstale]
      constructor
      · rintro ⟨hlm, d, hd, -⟩
        exact absurd (hd.symm.trans (hnone hlm)) (Option.some_ne_none d)
      · rintro ⟨hlm, d, hd, -⟩
        exact absurd (hd.symm.trans (hnone hlm)) (Option.some_ne_none d)
    -- What is left is the edit at `l` itself.
    rw [found_within_iff, found_within_iff, ← happlied, ← hstale]
    cases he : q.get? l with
    | some e =>
      obtain ⟨-, hloc⟩ := EditQueue.get?_eq_some_iff.mp he
      have hfresh := Edit.isFresh_iff_of_get? (e := e) (hloc ▸ hn)
      have hnotFresh := Edit.isStale_iff_of_get? (e := e) (hloc ▸ hn)
      by_cases hf : (e.found == ⟨payload, span, cs⟩) = true
      · -- The walk stops here, and there is nothing below that it could miss.
        obtain ⟨hnotApplied, hnotStale⟩ := hnothing (hq.get?_below he)
        rw [rebuild_of_fresh he hf]
        simp [hnotApplied, hnotStale, hfresh, hnotFresh, hf]
      · rw [rebuild_of_stale he (Bool.not_eq_true _ ▸ hf)]
        simp [hfresh, hnotFresh, hf]
    | none =>
      by_cases hwithin : q.hasWithin l = true
      · rw [rebuild_of_none he hwithin]
        simp
      · have hwithin := Bool.eq_false_iff.mpr hwithin
        obtain ⟨hnotApplied, hnotStale⟩ := hnothing fun hlm =>
          EditQueue.hasWithin_eq_false_iff.mp hwithin m
            (Location.contains_of_isStrictAncestorOf hlm)
        rw [rebuild_of_not_hasWithin hwithin]
        simp [hnotApplied, hnotStale]

end Rebuild

/-! ### Applying a queue -/

section Apply

variable {tree : Node} {q : EditQueue}

/-- The conflicts and what was absorbed are those of the resolution, whatever becomes of the kept
    edits. -/
theorem resolution_applyEdits (tree : Node) (q : EditQueue) :
    (applyEdits tree q).conflicts = q.resolve.conflicts ∧
      (applyEdits tree q).absorbed = q.resolve.absorbed := by
  unfold applyEdits
  simp only
  split
  · exact ⟨rfl, rfl⟩
  · exact ⟨rfl, rfl⟩

/-- Of the kept edits the fresh ones are the outermost fresh edits of the queue. -/
theorem exists_kept_iff {S : Edit → Prop} {m : Location} :
    (∃ e, q.resolve.kept.get? m = some e ∧ S e) ↔
      ∃ e ∈ q.edits, e.location = m ∧ q.IsOutermost m ∧ S e := by
  constructor
  · rintro ⟨e, he, hS⟩
    obtain ⟨hget, hout⟩ := EditQueue.get?_kept_resolve.mp he
    obtain ⟨hmem, hloc⟩ := EditQueue.get?_eq_some_iff.mp hget
    exact ⟨e, hmem, hloc, hout, hS⟩
  · rintro ⟨e, hmem, hloc, hout, hS⟩
    have hget := EditQueue.get?_eq_some_iff.mpr ⟨hmem, hloc⟩
    exact ⟨e, EditQueue.get?_kept_resolve.mpr ⟨hget, hout⟩, hS⟩

/-- The root is rebuilt to nothing exactly if its removal is queued and fresh. -/
theorem result_rebuild_root_eq_none_iff (htree : tree.Addressable) :
    (rebuild q.resolve.kept Location.root tree).result = none ↔ q.RemovesRoot tree := by
  rw [result_rebuild htree _ (Node.get?_root tree), Node.substitute_eq_none_iff]
  unfold EditQueue.freshAction EditQueue.RemovesRoot
  rw [Option.bind_eq_some_iff]
  constructor
  · rintro ⟨e, he, h⟩
    split at h
    · rename_i hfresh
      exact ⟨e, (EditQueue.get?_kept_resolve.mp he).1, hfresh, Option.some.inj h⟩
    · exact absurd h.symm (Option.some_ne_none _)
  · rintro ⟨e, he, hfresh, hact⟩
    refine ⟨e, EditQueue.get?_kept_resolve.mpr ⟨he, q.isOutermost_root⟩, ?_⟩
    rw [if_pos hfresh, hact]

/-- A fresh removal of the root is refused. -/
theorem applyEdits_of_removesRoot (htree : tree.Addressable) (h : q.RemovesRoot tree) :
    applyEdits tree q
      = ⟨tree, [], [Location.root], q.resolve.conflicts, q.resolve.absorbed⟩ := by
  have hnone := (result_rebuild_root_eq_none_iff htree).mpr h
  obtain ⟨e, he, ⟨n, hn, hfound⟩, -⟩ := h
  obtain ⟨-, hloc⟩ := EditQueue.get?_eq_some_iff.mp he
  rw [hloc, Node.get?_root, Option.some.injEq] at hn
  subst hn
  have hkept := EditQueue.get?_kept_resolve.mpr ⟨he, q.isOutermost_root⟩
  unfold applyEdits
  simp only [hnone]
  rw [rebuild_of_fresh hkept hfound]
  simp

/-- Unless the root is to be removed, the results are those of rebuilding the root. -/
theorem applyEdits_of_not_removesRoot (htree : tree.Addressable) (h : ¬ q.RemovesRoot tree) :
    (rebuild q.resolve.kept Location.root tree).result = some (applyEdits tree q).tree ∧
      (applyEdits tree q).applied = (rebuild q.resolve.kept Location.root tree).applied ∧
      (applyEdits tree q).stale = (rebuild q.resolve.kept Location.root tree).stale := by
  have hsome := mt (result_rebuild_root_eq_none_iff htree).mp h
  obtain ⟨result, hresult⟩ := Option.ne_none_iff_exists'.mp hsome
  unfold applyEdits
  simp only [hresult]
  exact ⟨trivial, trivial, trivial⟩

/-- The applied edits are the outermost ones that are fresh. -/
theorem mem_applied_applyEdits (htree : tree.Addressable) (h : ¬ q.RemovesRoot tree)
    (m : Location) :
    m ∈ (applyEdits tree q).applied ↔
      ∃ e ∈ q.edits, e.location = m ∧ q.IsOutermost m ∧ e.IsFresh tree := by
  rw [(applyEdits_of_not_removesRoot htree h).2.1,
    (mem_rebuild htree q.unnested_kept_resolve (Node.get?_root tree) m).1, exists_kept_iff]
  simp

/-- The stale edits that are reported are the outermost ones. -/
theorem mem_stale_applyEdits (htree : tree.Addressable) (h : ¬ q.RemovesRoot tree)
    (m : Location) :
    m ∈ (applyEdits tree q).stale ↔
      ∃ e ∈ q.edits, e.location = m ∧ q.IsOutermost m ∧ e.IsStale tree := by
  rw [(applyEdits_of_not_removesRoot htree h).2.2,
    (mem_rebuild htree q.unnested_kept_resolve (Node.get?_root tree) m).2, exists_kept_iff]
  simp

/-- The new tree comes from the fresh kept edits. -/
theorem substitute_freshAction_kept (htree : tree.Addressable) (h : ¬ q.RemovesRoot tree) :
    tree.substitute (q.resolve.kept.freshAction tree) Location.root
      = some (applyEdits tree q).tree := by
  rw [← result_rebuild htree _ (Node.get?_root tree)]
  exact (applyEdits_of_not_removesRoot htree h).1

/-- The action of the fresh kept edit at a location is the queued one, where an edit was made. -/
theorem freshAction_kept (htree : tree.Addressable) (h : ¬ q.RemovesRoot tree) (m : Location) :
    q.resolve.kept.freshAction tree m
      = if m ∈ (applyEdits tree q).applied then q.actionAt m else none := by
  have hiff := mem_applied_applyEdits htree h m
  rw [← exists_kept_iff] at hiff
  unfold EditQueue.freshAction EditQueue.actionAt
  cases hk : q.resolve.kept.get? m with
  | none =>
    rw [if_neg (by rw [hiff, hk]; simp)]
    rfl
  | some e =>
    have hget := (EditQueue.get?_kept_resolve.mp hk).1
    rw [hk] at hiff
    simp only [Option.some.injEq, exists_eq_left'] at hiff
    simp only [Option.bind_some, hget, Option.map_some, hiff]

/-- When no edit was made the tree is as it was. -/
theorem tree_applyEdits_of_not_changed (htree : tree.Addressable)
    (h : (applyEdits tree q).changed = false) : (applyEdits tree q).tree = tree := by
  by_cases hroot : q.RemovesRoot tree
  · rw [applyEdits_of_removesRoot htree hroot]
  · have hnone : (applyEdits tree q).applied = [] := by
      simpa [Applied.changed] using h
    have hsame : tree.substitute (q.resolve.kept.freshAction tree) Location.root = some tree := by
      refine Node.substitute_eq_some_self tree fun m _ => ?_
      rw [freshAction_kept htree hroot, hnone, if_neg List.not_mem_nil]
    rw [substitute_freshAction_kept htree hroot, Option.some.injEq] at hsame
    exact hsame

/-- **Application is substitution.** For a tree whose nodes can all be addressed, and any queue: of
    the outermost edits exactly the fresh ones are made and exactly the stale ones are noted, and
    the new tree is the plain substitution of the edits that were made. Only the removal of the root
    is refused when it is fresh. -/
theorem applyEdits_eq_substitute (tree : Node) (q : EditQueue) (htree : tree.Addressable) :
    (q.RemovesRoot tree →
      (applyEdits tree q).tree = tree ∧ (applyEdits tree q).applied = [] ∧
        (applyEdits tree q).stale = [Location.root]) ∧
    (¬ q.RemovesRoot tree →
      (∀ l, l ∈ (applyEdits tree q).applied ↔
        ∃ e ∈ q.edits, e.location = l ∧ q.IsOutermost l ∧ e.IsFresh tree) ∧
      (∀ l, l ∈ (applyEdits tree q).stale ↔
        ∃ e ∈ q.edits, e.location = l ∧ q.IsOutermost l ∧ e.IsStale tree) ∧
      tree.substitute
          (fun l => if l ∈ (applyEdits tree q).applied then q.actionAt l else none) Location.root
        = some (applyEdits tree q).tree) := by
  constructor
  · intro h
    rw [applyEdits_of_removesRoot htree h]
    exact ⟨rfl, rfl, rfl⟩
  · intro h
    refine ⟨mem_applied_applyEdits htree h, mem_stale_applyEdits htree h, ?_⟩
    rw [← substitute_freshAction_kept htree h]
    exact Node.substitute_congr tree fun m _ => (freshAction_kept htree h m).symm

/-- A list of two items, an empty comment and a text. -/
def sampleTree : Node :=
  .ofPayload .document
    [.ofPayload (.element "ul" [] false)
      [.ofPayload (.text "a") [], .ofPayload (.text "b") []],
      .ofPayload (.comment "") [], .ofPayload (.text "tail") []]

theorem addressable_sampleTree : sampleTree.Addressable := by
  unfold Node.Addressable
  decide

/-- Edits of the sample: a replacement with another edit below it, a removal, an edit that is stale
    and one that addresses no node. -/
def sampleEdits : EditQueue :=
  ((((EditQueue.empty.push ⟨[0, 1]⟩ (.ofPayload (.text "b") [])
      (.replace (.ofPayload (.text "c") []))).push
    ⟨[0, 1, 0]⟩ (.ofPayload (.text "x") []) .remove).push
    ⟨[1]⟩ (.ofPayload (.comment "") []) .remove).push
    ⟨[2]⟩ (.ofPayload (.text "head") []) .remove).push
    ⟨[7]⟩ (.ofPayload (.text "") []) .remove

/-- The replacement and the first removal are applied, the edit below the replacement goes with it,
    and of the other two one is stale. -/
theorem applyEdits_sample :
    sampleTree.Addressable ∧ ¬ sampleEdits.RemovesRoot sampleTree ∧
      (applyEdits sampleTree sampleEdits).applied = [⟨[0, 1]⟩, ⟨[1]⟩] ∧
      (applyEdits sampleTree sampleEdits).stale = [⟨[2]⟩] ∧
      sampleTree.substitute
          (fun l => if l ∈ (applyEdits sampleTree sampleEdits).applied
            then sampleEdits.actionAt l else none) Location.root
        = some (applyEdits sampleTree sampleEdits).tree := by
  have hroot : ¬ sampleEdits.RemovesRoot sampleTree := by
    rintro ⟨e, he, -⟩
    have hnone : sampleEdits.get? Location.root = none := by rfl
    rw [hnone] at he
    exact absurd he.symm (Option.some_ne_none e)
  refine ⟨addressable_sampleTree, hroot, by decide, by decide, ?_⟩
  exact ((applyEdits_eq_substitute sampleTree sampleEdits addressable_sampleTree).2 hroot).2.2

end Apply

end TreeLint
