import Mathlib
import TreeLint.Proofs.Application
import TreeLint.Proofs.Traversal
import TreeLint.Rule.Builtin

namespace TreeLint

/-!
# The edits of a pass fit its own tree

Callbacks may replace a node before its children are walked, so that the walk goes on over nodes
that the tree does not have, and they may edit the nodes above their own. Still no edit that counts
is about such a node: as long as nothing is queued above a location, the walk is there over the
untouched tree.

* `EditQueue.Anchored`: every outermost edit of a queue remembers the node of the tree at its
  location.
* `anchorLaw`: the reactions of callbacks keep a queue anchored, because every step of a path is
  anchored as well. The invariant of a step is that its node is the node of the tree, unless
  an edit is queued above it.
* `EditQueue.Anchored.tree_applyEdits`: applying an anchored queue substitutes all its edits.
* `traverse_edits_fresh`: the outermost edits of a pass all fit its tree, and are all made.
-/

variable {tree : Node}

/-- Every edit that lies below no other one remembers the node of the tree at its location. -/
def EditQueue.Anchored (q : EditQueue) (tree : Node) : Prop :=
  ∀ e ∈ q.edits, q.IsOutermost e.location → tree.get? e.location = some e.found

/-- The node found at a location is the node of the tree there, unless an edit is queued above. -/
def EditQueue.Anchors (q : EditQueue) (tree : Node) (l : Location) (found : Node) : Prop :=
  q.IsOutermost l → tree.get? l = some found

namespace EditQueue

variable {q q' : EditQueue} {l : Location} {found : Node}

theorem anchored_empty (tree : Node) : empty.Anchored tree :=
  fun _ he => absurd he List.not_mem_nil

/-- What stays queued stays an anchor. -/
theorem Anchors.of_extends (h : q.Anchors tree l found) (hq : q.Extends q') :
    q'.Anchors tree l found :=
  fun hl => h (hl.of_extends hq)

/-- A push at an anchored node keeps the queue anchored. -/
theorem Anchored.push (hq : q.Anchored tree) (h : q.Anchors tree l found) (action : EditAction) :
    (q.push l found action).Anchored tree := by
  intro e he hout
  have hout' : q.IsOutermost e.location := hout.of_extends (q.extends_push l found action)
  have hget := mem_edits_iff.mp he
  rw [get?_push] at hget
  split at hget
  · rename_i hloc
    rw [hloc] at hout' ⊢
    rw [← Option.some.inj hget]
    -- The first edit at the location has recorded what stands there.
    cases hold : q.get? l with
    | none => exact h hout'
    | some old =>
      obtain ⟨hmem, holdloc⟩ := get?_eq_some_iff.mp hold
      have := hq old hmem (holdloc ▸ hout')
      rw [holdloc] at this
      exact this
  · exact hq e (mem_edits_iff.mpr hget) hout'

/-- The requests of a callback keep the queue anchored, if all steps of its path are anchored. -/
theorem Anchored.foldl_request {steps : List Step} (requests : List EditRequest)
    (hq : q.Anchored tree) (hsteps : ∀ s ∈ steps, q.Anchors tree s.location s.found) :
    (requests.foldl (WalkState.request steps) q).Anchored tree := by
  induction requests generalizing q with
  | nil => exact hq
  | cons r requests ih =>
    have hext := extends_request steps q r
    have hone : (WalkState.request steps q r).Anchored tree := by
      unfold WalkState.request
      split
      · rename_i s hs
        exact hq.push (hsteps s (List.mem_of_getElem? hs)) _
      · exact hq
    exact ih hone fun s hs => (hsteps s hs).of_extends hext

/-- Whatever edits are queued above a location are queued above its children. -/
theorem IsOutermost.of_child {i : Nat} (h : q.IsOutermost (l.child i)) : q.IsOutermost l := by
  intro e he
  by_contra hel
  have hel := Location.isStrictAncestorOf_trans (Bool.not_eq_false _ ▸ hel)
    (Location.isStrictAncestorOf_child l i)
  exact absurd (h e he) (by simp [hel])

end EditQueue

/-- The node that is walked and the steps above it are anchored. -/
def AnchoredPath (tree found : Node) (l : Location) (above : List Step) (s : WalkState) : Prop :=
  s.edits.Anchors tree l found ∧ ∀ st ∈ above, s.edits.Anchors tree st.location st.found

/-- Edits stay queued, and an anchored queue stays anchored. -/
def KeepsAnchored (tree : Node) (a b : WalkState) : Prop :=
  a.edits.Extends b.edits ∧ (a.edits.Anchored tree → b.edits.Anchored tree)

/-- **Walks keep the queue anchored.** -/
theorem anchorLaw (registry : Registry) (htree : tree.Addressable) :
    WalkLaw registry (AnchoredPath tree) (KeepsAnchored tree) where
  refl s := ⟨EditQueue.Extends.refl s.edits, fun h => h⟩
  trans hab hbc := ⟨hab.1.trans hbc.1, fun h => hbc.2 (hab.2 h)⟩
  stable hC hR := ⟨hC.1.of_extends hR.1, fun st hst => (hC.2 st hst).of_extends hR.1⟩
  react := by
    intro found l above s r phase callback _ _ hC graft
    refine ⟨extends_react s r phase _ _, fun hs => ?_⟩
    refine hs.foldl_request _ ?_
    intro st hst
    rcases List.mem_cons.mp hst with rfl | hst
    · exact hC.1
    · exact hC.2 st hst
  child := by
    intro found l above s hC entered hentered i c hc
    constructor
    · intro hout
      rcases hentered with hnode | hedit
      · -- The walk is still over the node of the tree, so its child is the child there.
        have hget := hC.1 hout.of_child
        rw [hnode] at hc
        have hlt := (List.getElem?_eq_some_iff.mp hc).1
        have hle := (htree.of_mem (Node.mem_parts_of_get? hget)).children_length
        exact Node.get?_child_of_get? (lt_of_lt_of_le hlt hle) hget hc
      -- Below an edit nothing is outermost.
      · obtain ⟨e, he⟩ := Option.isSome_iff_exists.mp hedit
        obtain ⟨hmem, hloc⟩ := EditQueue.get?_eq_some_iff.mp he
        exact absurd (hout e hmem) (by simp [hloc, Location.isStrictAncestorOf_child])
    · intro st hst
      rcases List.mem_cons.mp hst with rfl | hst
      · exact hC.1
      · exact hC.2 st hst
  suppress hC _ := hC
  lift hR := hR

/-- **A pass queues edits of nodes that it found in the tree.** -/
theorem anchored_traverse (registry : Registry) (maxDepth : Nat) (c : Collector)
    (htree : tree.Addressable) :
    (traverse registry maxDepth tree c).2.edits.Anchored tree := by
  have hroot : AnchoredPath tree tree Location.root [] (WalkState.start c) :=
    ⟨fun _ => Node.get?_root tree, fun _ h => absurd h List.not_mem_nil⟩
  have hwalk :=
    (anchorLaw registry htree).rel_walk maxDepth (maxDepth + 1) (Graft.ofNode tree) hroot
  exact hwalk.2 (EditQueue.anchored_empty tree)

/-- An outermost edit of an anchored queue is fresh. -/
theorem EditQueue.Anchored.isFresh {q : EditQueue} (hq : q.Anchored tree) {e : Edit}
    (he : e ∈ q.edits) (hout : q.IsOutermost e.location) : e.IsFresh tree :=
  ⟨e.found, hq e he hout, Node.beq_self _⟩

/-- All outermost edits of an anchored queue are made, so the new tree is the substitution of the
    whole queue. -/
theorem EditQueue.Anchored.tree_applyEdits {q : EditQueue} (hq : q.Anchored tree)
    (htree : tree.Addressable) {result : Node}
    (hresult : tree.substitute q.actionAt Location.root = some result) :
    (applyEdits tree q).tree = result := by
  have hroot : ¬ q.RemovesRoot tree := by
    rintro ⟨e, he, -, hremove⟩
    have hat : q.actionAt Location.root = some .remove := by
      rw [EditQueue.actionAt, he, ← hremove]
      rfl
    rw [Node.substitute_eq_none_iff.mpr hat] at hresult
    exact absurd hresult.symm (Option.some_ne_none result)
  rw [← Option.some.injEq, ← substitute_freshAction_kept htree hroot, ← hresult]
  -- Only outermost actions matter, and those are kept and fresh.
  refine Node.substitute_outermost tree fun m _ habove => ?_
  have hout : q.IsOutermost m := by
    intro e he
    by_contra hem
    have hnone := habove e.location (Location.root_contains _) (Bool.not_eq_false _ ▸ hem)
    rw [EditQueue.actionAt, EditQueue.mem_edits_iff.mp he] at hnone
    exact absurd hnone (Option.some_ne_none _)
  unfold EditQueue.freshAction EditQueue.actionAt
  cases hget : q.get? m with
  | none =>
    have hkept : q.resolve.kept.get? m = none := by
      by_contra hsome
      obtain ⟨e, he⟩ := Option.ne_none_iff_exists'.mp hsome
      rw [(EditQueue.get?_kept_resolve.mp he).1] at hget
      exact absurd hget (Option.some_ne_none e)
    rw [hkept]
    rfl
  | some e =>
    obtain ⟨hmem, rfl⟩ := EditQueue.get?_eq_some_iff.mp hget
    rw [EditQueue.get?_kept_resolve.mpr ⟨hget, hout⟩, Option.bind_some, Option.map_some,
      if_pos (hq.isFresh hmem hout)]

/-- **No edit of a pass is stale for its own tree.** For every tree whose nodes can be addressed,
    all rules, settings and depth limits, and whether or not the walk succeeds: an edit that
    lies below no other one remembers the very node of the tree at its location. Applied to
    that tree all these edits are made and none is stale, unless the root is to be removed. -/
theorem traverse_edits_fresh (registry : Registry) (maxDepth : Nat) (tree : Node) (c : Collector)
    (htree : tree.Addressable) :
    let q := (traverse registry maxDepth tree c).2.edits
    (∀ e ∈ q.edits, q.IsOutermost e.location → tree.get? e.location = some e.found) ∧
      ((∀ e, q.get? Location.root = some e → e.action ≠ .remove) →
        (∀ e ∈ q.edits, q.IsOutermost e.location → e.location ∈ (applyEdits tree q).applied) ∧
          (applyEdits tree q).stale = []) := by
  intro q
  have hq : q.Anchored tree := anchored_traverse registry maxDepth c htree
  refine ⟨hq, fun hroot => ?_⟩
  have hroot : ¬ q.RemovesRoot tree := fun ⟨e, he, _, hremove⟩ => hroot e he hremove
  constructor
  · intro e he hout
    exact (mem_applied_applyEdits htree hroot _).mpr ⟨e, he, rfl, hout, hq.isFresh he hout⟩
  · rw [List.eq_nil_iff_forall_not_mem]
    intro m hm
    obtain ⟨e, he, rfl, hout, x, hx, hstale⟩ := (mem_stale_applyEdits htree hroot m).mp hm
    rw [hq e he hout, Option.some.injEq] at hx
    rw [← hx, Node.beq_self] at hstale
    exact absurd hstale (by simp)

/-- The built-in rules over the sample tree: they queue the removal of the empty comment. -/
theorem traverse_edits_fresh_sample :
    let q := (traverse Builtin.registry 8 sampleTree (Collector.new .applyFixes none)).2.edits
    sampleTree.Addressable ∧ q.edits.map (·.location) = [⟨[1]⟩] ∧
      (∀ e ∈ q.edits, q.IsOutermost e.location → sampleTree.get? e.location = some e.found) ∧
      (applyEdits sampleTree q).stale = [] := by
  intro q
  have hfresh := traverse_edits_fresh Builtin.registry 8 sampleTree
    (Collector.new .applyFixes none) addressable_sampleTree
  have hroot : ∀ e, q.get? Location.root = some e → e.action ≠ .remove := by
    have hnone : q.get? Location.root = none := by rfl
    intro e he
    rw [hnone] at he
    exact absurd he.symm (Option.some_ne_none e)
  exact ⟨addressable_sampleTree, by decide, hfresh.1, (hfresh.2 hroot).2⟩

end TreeLint
