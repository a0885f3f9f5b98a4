import Mathlib
import TreeLint.Proofs.FixStatus
import TreeLint.Proofs.FreshPass
import TreeLint.Proofs.RunRecord

namespace TreeLint

/-!
# What a converged run leaves undone

A run converges as soon as applying the edits of a pass gives a structurally equal tree. The edits
of that pass need not be empty: an edit that changes nothing still takes precedence over the edits
below it, and these are lost for good, since a further pass would come to the same. This is the only
way in which a fix is left behind.

* `rebuild_same`: if rebuilding gives a structurally equal tree, every edit that was made put a
  structurally equal node in the place of its own. `tree_applyEdits_same` is the same for a queue.
* `Edit.IsIdle`: the edit was not made, or made no difference.
* `idle_of_settles`: when a pass settles a tree, conflicts are lost to idle edits only.
* `run_converged_superseded` is the result for runs. `run_converged_leaves_fix` is a run that
  converges although a fix is left.
-/

/-! ### Rebuilding to an equal tree -/

section Rebuild

variable {q : EditQueue} {l : Location}

/-- Rebuilding adds no children. -/
theorem length_result_rebuildAll_le (q : EditQueue) (l : Location) (i : Nat) (cs : List Node) :
    (rebuildAll q l i cs).result.length ≤ cs.length := by
  induction cs generalizing i with
  | nil => exact Nat.le_refl 0
  | cons c cs ih =>
    have hrest := ih (i + 1)
    have hfirst : (rebuild q (l.child i) c).result.toList.length ≤ 1 := by
      cases (rebuild q (l.child i) c).result <;> simp
    rw [rebuildAll]
    simp only [List.length_append, List.length_cons]
    omega

/-- The edit at `m` replaces its node by one that is structurally equal to it. -/
def EditQueue.KeepsAt (q : EditQueue) (m : Location) : Prop :=
  ∃ e node, q.get? m = some e ∧ e.action = .replace node ∧ (node == e.found) = true

/-- If children are rebuilt to structurally equal ones, none was removed, so that each was rebuilt
    to one that is structurally equal to it. -/
theorem rebuildAll_same {i : Nat} {cs : List Node}
    (hcs : ∀ c ∈ cs, ∀ l r, (rebuild q l c).result = some r → r.bare = c.bare →
      ∀ m ∈ (rebuild q l c).applied, q.KeepsAt m)
    (h : (rebuildAll q l i cs).result.map Node.bare = cs.map Node.bare) :
    ∀ m ∈ (rebuildAll q l i cs).applied, q.KeepsAt m := by
  induction cs generalizing i with
  | nil => exact fun m hm => absurd hm List.not_mem_nil
  | cons c cs ih =>
    rw [rebuildAll] at h ⊢
    cases hfirst : (rebuild q (l.child i) c).result with
    | none =>
      -- Without the first child there are too few.
      have hlength := congrArg List.length h
      have hle := length_result_rebuildAll_le q l (i + 1) cs
      simp only [hfirst, Option.toList_none, List.nil_append, List.length_map,
        List.length_cons] at hlength
      omega
    | some r =>
      simp only [hfirst, Option.toList_some, List.singleton_append, List.map_cons,
        List.cons.injEq] at h
      intro m hm
      rcases List.mem_append.mp hm with hm | hm
      · exact hcs c List.mem_cons_self (l.child i) r hfirst h.1 m hm
      · exact ih (fun d hd => hcs d (List.mem_cons_of_mem c hd)) h.2 m hm

/-- **Edits that change nothing.** If a node is rebuilt to one that is structurally equal to it,
    each edit that was made replaces its node by one that is structurally equal to it. -/
theorem rebuild_same {n r : Node} (hr : (rebuild q l n).result = some r) (hsame : r.bare = n.bare) :
    ∀ m ∈ (rebuild q l n).applied, q.KeepsAt m := by
  induction n generalizing l r with
  | node payload span cs ih =>
    have hchildren : r = ⟨payload, span, (rebuildAll q l 0 cs).result⟩ →
        ∀ m ∈ (rebuildAll q l 0 cs).applied, q.KeepsAt m := by
      rintro rfl
      simp only [Node.bare, Node.mk.injEq, true_and, Node.bareAll_eq] at hsame
      exact rebuildAll_same (fun c hc l r => ih c hc) hsame
    cases he : q.get? l with
    | some e =>
      by_cases hfound : (e.found == ⟨payload, span, cs⟩) = true
      · rw [rebuild_of_fresh he hfound] at hr ⊢
        intro m hm
        rw [List.mem_singleton.mp hm]
        -- A removal would leave nothing, so the edit put an equal node in place.
        cases haction : e.action with
        | remove =>
          rw [haction] at hr
          exact absurd hr.symm (Option.some_ne_none r)
        | replace node =>
          rw [haction] at hr
          obtain rfl : node = r := Option.some.inj hr
          refine ⟨e, node, he, haction, Node.beq_iff_bare.mpr ?_⟩
          rw [hsame, Node.beq_iff_bare.mp hfound]
      · rw [rebuild_of_stale he (Bool.not_eq_true _ ▸ hfound)] at hr ⊢
        exact hchildren (Option.some.inj hr).symm
    | none =>
      by_cases hwithin : q.hasWithin l = true
      · rw [rebuild_of_none he hwithin] at hr ⊢
        exact hchildren (Option.some.inj hr).symm
      · rw [rebuild_of_not_hasWithin (Bool.eq_false_iff.mpr hwithin)]
        exact fun m hm => absurd hm List.not_mem_nil

/-- A node is removed only by an edit of its own. -/
theorem applied_rebuild_of_none {n : Node} (h : (rebuild q l n).result = none) :
    (rebuild q l n).applied = [l] := by
  cases he : q.get? l with
  | some e =>
    by_cases hfound : (e.found == n) = true
    · rw [rebuild_of_fresh he hfound]
    · rw [rebuild_of_stale he (Bool.not_eq_true _ ▸ hfound)] at h
      exact absurd h (Option.some_ne_none _)
  | none =>
    by_cases hwithin : q.hasWithin l = true
    · rw [rebuild_of_none he hwithin] at h
      exact absurd h (Option.some_ne_none _)
    · rw [rebuild_of_not_hasWithin (Bool.eq_false_iff.mpr hwithin)] at h
      exact absurd h (Option.some_ne_none _)

end Rebuild

/-- If the edits of a queue give a structurally equal tree, each edit that was made replaces its
    node by one that is structurally equal to it. -/
theorem tree_applyEdits_same {tree : Node} {q : EditQueue}
    (h : ((applyEdits tree q).tree == tree) = true) :
    ∀ m ∈ (applyEdits tree q).applied, q.KeepsAt m := by
  have hkept : ∀ {m}, q.resolve.kept.KeepsAt m → q.KeepsAt m := by
    rintro m ⟨e, node, he, hsame⟩
    exact ⟨e, node, (EditQueue.get?_kept_resolve.mp he).1, hsame⟩
  unfold applyEdits at h ⊢
  simp only at h ⊢
  cases hresult : (rebuild q.resolve.kept Location.root tree).result with
  | some result =>
    simp only [hresult] at h ⊢
    exact fun m hm => hkept (rebuild_same hresult (Node.beq_iff_bare.mp h) m hm)
  | none =>
    simp only [applied_rebuild_of_none hresult]
    simp

/-! ### Passes that settle a tree -/

/-- The edit has not changed the tree: it was not made, or it has put a structurally equal node in
    the place of its own. -/
def Edit.IsIdle (k : Edit) (a : Applied) : Prop :=
  k.location ∉ a.applied ∨ ∃ node, k.action = .replace node ∧ (node == k.found) = true

/-- **A pass that settles a tree loses edits to idle ones only.** -/
theorem idle_of_settles {tree : Node} {pass : PassResult} (h : pass.Settles tree) {c : Conflict}
    (hc : c ∈ (applyEdits tree pass.edits).conflicts) :
    ∃ k ∈ pass.edits.resolve.kept.edits, pass.edits.get? c.kept = some k ∧
      k.IsIdle (applyEdits tree pass.edits) := by
  rcases h with hempty | hsettled
  · rw [conflicts_applyEdits_of_isEmpty hempty] at hc
    exact absurd hc List.not_mem_nil
  · rw [(resolution_applyEdits tree pass.edits).1] at hc
    obtain ⟨-, -, k, hk, -, -, rfl⟩ := EditQueue.mem_conflicts_resolve.mp hc
    have hget := EditQueue.mem_edits_iff.mp (EditQueue.mem_kept_resolve.mp hk).1
    refine ⟨k, hk, hget, ?_⟩
    rcases hsettled with hunchanged | hsame
    · have hnil : (applyEdits tree pass.edits).applied = [] := by
        simpa [Applied.changed] using hunchanged
      exact .inl (by simp [hnil])
    · by_cases happlied : k.location ∈ (applyEdits tree pass.edits).applied
      · obtain ⟨e, node, he, hnode, hequal⟩ := tree_applyEdits_same hsame k.location happlied
        obtain rfl : k = e := Option.some.inj (hget.symm.trans he)
        exact .inr ⟨node, hnode, hequal⟩
      · exact .inl happlied

/-- Of the kept edits of a pass over a tree whose nodes can be addressed only the removal of the
    root is not made. -/
theorem removesRoot_of_not_applied {tree : Node} {q : EditQueue} (hq : q.Anchored tree)
    (htree : tree.Addressable) {k : Edit} (hk : k ∈ q.resolve.kept.edits)
    (h : k.location ∉ (applyEdits tree q).applied) :
    k.location = Location.root ∧ k.action = .remove := by
  obtain ⟨hmem, hout⟩ := EditQueue.mem_kept_resolve.mp hk
  have hroot : q.RemovesRoot tree := by
    by_contra hroot
    exact h ((mem_applied_applyEdits htree hroot _).mpr
      ⟨k, hmem, rfl, hout, hq.isFresh hmem hout⟩)
  have hloc := location_eq_root_of_removesRoot hroot hk
  obtain ⟨e, he, -, hremove⟩ := hroot
  have hget := EditQueue.mem_edits_iff.mp hmem
  rw [hloc] at hget
  obtain rfl : k = e := Option.some.inj (hget.symm.trans he)
  exact ⟨hloc, hremove⟩

/-- A fix that counts as superseded has lost a conflict. -/
theorem discards_of_superseded {tree : Node} {q : EditQueue} {d : Diagnostic}
    (h : (applyEdits tree q).statusOf d = .superseded) : q.Discards d.location.node := by
  by_cases hfix : d.hasFix = true
  · by_cases hgoverns : ∃ g, q.Governs g d.location.node
    · obtain ⟨g, hg⟩ := hgoverns
      rw [statusOf_of_governs hfix hg] at h
      split_ifs at h
    · rw [not_exists] at hgoverns
      unfold Applied.statusOf at h
      simp only [hfix, if_true, governing_of_not_governs hgoverns] at h
      split_ifs at h with happlied hstale hdiscards
      exact any_discarded_iff.mp hdiscards
  · unfold Applied.statusOf at h
    rw [if_neg hfix] at h
    exact absurd h (by simp)

namespace Engine

/-! ### Runs -/

/-- The edits of a pass are anchored in its tree. -/
theorem anchored_passOver (e : Engine) {tree : Node} (htree : tree.Addressable) :
    (e.passOver tree).edits.Anchored tree := by
  rcases e.passOver_cases tree with hfailed | ⟨view, hpass⟩
  · rw [hfailed]
    exact EditQueue.anchored_empty tree
  · rw [hpass]
    exact anchored_traverse e.registry e.config.maxDepth e.collector htree

/-- A diagnostic of the record of a pass that counts as superseded is about an edit that lost a
    conflict of that pass. -/
theorem exists_conflict_of_recorded {e : Engine} {tree : Node} {i : Nat} {d : Diagnostic}
    (hd : d ∈ e.recordAt tree i) (h : d.status = .superseded) :
    ∃ c ∈ (e.applied (e.treeAt tree i)).conflicts, c.discarded = d.location.node := by
  unfold recordAt PassResult.annotated at hd
  split at hd
  · rcases untried_passOver e _ d hd with huntried | huntried <;> simp [huntried] at h
  · obtain ⟨d', -, rfl⟩ := List.mem_map.mp hd
    have hdiscards := discards_of_superseded h
    exact exists_discarded_iff.mpr hdiscards

/-- **A converged run leaves no fix behind but below edits that change nothing.** Whatever the
    rules, the settings and the tree, with fixes on: if a run converges, its last pass was made over
    the tree that it returns, and every edit that lost a conflict of that pass lost to an edit that
    did not change the tree; if the nodes of the tree can be addressed, that is one that puts a
    structurally equal node in the place of its own, or the removal of the root, which is refused. A
    diagnostic that counts as superseded is about an edit that lost such a conflict. -/
theorem run_converged_superseded (registry : Registry) (config : Config) (e : Engine)
    (he : Engine.new registry config = .ok e) (hfix : config.applyFixes = true) (cancelled : Bool)
    (tree : Node) (o : Outcome) (h : (e.run cancelled tree).result = .ok o)
    (hconverged : o.converged = true) :
    (e.runPass false o.tree).result = .ok (e.passOver o.tree) ∧
      (∀ c ∈ (e.applied o.tree).conflicts, ∃ k, (e.passOver o.tree).edits.get? c.kept = some k ∧
        k.IsIdle (e.applied o.tree) ∧
        (o.tree.Addressable → k.location ∉ (e.applied o.tree).applied →
          k.location = Location.root ∧ k.action = .remove)) ∧
      ∀ d ∈ o.diagnostics, d.status = .superseded →
        ∃ c ∈ (e.applied o.tree).conflicts, c.discarded = d.location.node := by
  obtain ⟨rfl, hpos⟩ := eq_of_new he
  have hloop := h
  unfold Engine.run at hloop
  rw [if_pos hfix] at hloop
  have hrun := (Progressed.start _ tree).isFixRun_fixFrom (Nat.zero_add _) hpos hloop
  -- The last pass was made over the tree that the run returns.
  have hchanges : o.changes = o.iterations - 1 := if_pos hconverged
  have hlast : o.changes < o.iterations := by
    have := hrun.iterations_pos
    omega
  have hpass := hrun.passes o.changes hlast
  have hdiagnostics := diagnostics_of_run hfix h hrun.iterations_pos
  rw [← hrun.tree_eq] at hpass
  rw [← hchanges] at hdiagnostics
  refine ⟨hpass, ?_, ?_⟩
  · intro c hc
    obtain ⟨k, hkept, hk, hidle⟩ := idle_of_settles (hrun.settles hconverged) hc
    refine ⟨k, hk, hidle, fun htree hnot => ?_⟩
    exact removesRoot_of_not_applied (anchored_passOver _ htree) htree hkept hnot
  · intro d hd hsuperseded
    rw [hdiagnostics] at hd
    rcases List.mem_append.mp hd with hearlier | hrecorded
    · -- Of the passes before the last one only the fixes that were made are reported.
      obtain ⟨i, -, hfixed⟩ := List.mem_flatMap.mp hearlier
      have happlied := (List.mem_filter.mp hfixed).2
      rw [hsuperseded] at happlied
      exact absurd happlied (by simp)
    · rw [hrun.tree_eq]
      exact exists_conflict_of_recorded hrecorded hsuperseded

end Engine

/-- Rules for the sample. The first two undo each other, so that a list is replaced by itself in
    every pass, and always before the repair of its items. -/
def undoingRegistry : Registry where
  rules :=
    [ replacing "ordered-lists" .element fun n => n.withPayload (n.payload.withName "ol"),
      replacing "unordered-lists" .element fun n => n.withPayload (n.payload.withName "ul"),
      repairing "same-text" .text fun n => n.withPayload (n.payload.withValue "b") ]
  supports _ := true
  names_nodup := by decide

/-- A list with one item. -/
def sampleList : Node := .ofPayload (.element "ul" [] false) [.ofPayload (.text "a") []]

/-- The edit of the list in the sample is idle, and the item is not repaired. -/
theorem run_converged_superseded_sample :
    ∃ o, (Engine.run ⟨undoingRegistry, sampleConfig 5⟩ false sampleList).result = .ok o ∧
      o.converged = true ∧ o.conflicts = [⟨Location.root, ⟨[0]⟩⟩] ∧
      ∀ c ∈ (Engine.applied ⟨undoingRegistry, sampleConfig 5⟩ o.tree).conflicts,
        ∃ k, (Engine.passOver ⟨undoingRegistry, sampleConfig 5⟩ o.tree).edits.get? c.kept = some k ∧
          k.IsIdle (Engine.applied ⟨undoingRegistry, sampleConfig 5⟩ o.tree) := by
  have hrun : ((Engine.run ⟨undoingRegistry, sampleConfig 5⟩ false sampleList).result.toOption.map
      fun o => (o.converged, o.conflicts)) = some (true, [⟨Location.root, ⟨[0]⟩⟩]) := by
    decide +kernel
  obtain ⟨o, hresult, hvalues⟩ := exists_ok_of_map_toOption hrun
  simp only [Prod.mk.injEq] at hvalues
  refine ⟨o, hresult, hvalues.1, hvalues.2, fun c hc => ?_⟩
  obtain ⟨k, hk, hidle, -⟩ := (Engine.run_converged_superseded undoingRegistry (sampleConfig 5) _
    rfl rfl false sampleList o hresult hvalues.1).2.1 c hc
  exact ⟨k, hk, hidle⟩

/-- A run over the sample converges in its first pass, and the only diagnostic is superseded. -/
theorem run_converged_leaves_fix :
    ∃ o, (Engine.run ⟨undoingRegistry, sampleConfig 5⟩ false sampleList).result = .ok o ∧
      o.converged = true ∧ o.iterations = 1 ∧ o.conflicts = [⟨Location.root, ⟨[0]⟩⟩] ∧
      o.diagnostics.map (fun d => (d.location.node, d.status)) = [(⟨[0]⟩, .superseded)] := by
  have hrun : ((Engine.run ⟨undoingRegistry, sampleConfig 5⟩ false sampleList).result.toOption.map
      fun o => (o.converged, o.iterations, o.conflicts,
        o.diagnostics.map fun d => (d.location.node, d.status)))
      = some (true, 1, [⟨Location.root, ⟨[0]⟩⟩], [(⟨[0]⟩, .superseded)]) := by decide +kernel
  obtain ⟨o, hresult, hvalues⟩ := exists_ok_of_map_toOption hrun
  simp only [Prod.mk.injEq] at hvalues
  exact ⟨o, hresult, hvalues⟩

end TreeLint
