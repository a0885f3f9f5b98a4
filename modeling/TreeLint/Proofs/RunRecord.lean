import Mathlib
import TreeLint.Proofs.Collector
import TreeLint.Proofs.FixLoop

namespace TreeLint

/-!
# The diagnostics of a run

A fixing run reports the diagnostics of its last pass, and of the passes before it those whose fixes
were made. The loop keeps two lists for that: what has been carried over, and what the last pass had
to say.

* `PassResult.annotated`: the diagnostics of a pass, each with what became of its fix.
* `Engine.recordAt` is that list for each of the passes over the trees of `Engine.treeAt`.
* `Recorded` is the invariant of the two lists, kept by `Recorded.next`; `recorded_fixFrom` is the
  induction over the loop and `run_diagnostics` the result.
* `Diagnostic.Untried`: as a callback emits it, the fix of a diagnostic has not been tried. So a
  pass without edits applies no fix (`countP_annotated`).
-/

/-! ### Diagnostics as they are emitted -/

/-- Nothing has become of the fix, if there is one. -/
def Diagnostic.Untried (d : Diagnostic) : Prop := d.status = .none ∨ d.status = .available

theorem Collector.untried_diagnose (c : Collector) (f : Finding) : (c.diagnose f).Untried := by
  unfold Collector.diagnose Diagnostic.Untried
  cases f.fix with
  | none => exact .inl rfl
  | replacement patch => exact .inr rfl
  | removal => exact .inr rfl

theorem Collector.untried_addAll {c : Collector} (h : ∀ d ∈ c.diagnostics, d.Untried)
    (fs : List Finding) : ∀ d ∈ (c.addAll fs).diagnostics, d.Untried := by
  rw [Collector.addAll_eq]
  intro d hd
  rcases List.mem_append.mp hd with hd | hd
  · exact h d hd
  · obtain ⟨f, -, rfl⟩ := List.mem_map.mp hd
    exact c.untried_diagnose f

/-- Walks collect untried diagnostics only. -/
theorem untriedLaw (registry : Registry) :
    WalkLaw registry (fun _ _ _ _ => True) fun a b =>
      (∀ d ∈ a.collector.diagnostics, d.Untried) → ∀ d ∈ b.collector.diagnostics, d.Untried where
  refl _ h := h
  trans hab hbc h := hbc (hab h)
  stable hC _ := hC
  react _ _ _ _ h := Collector.untried_addAll h _
  child hC _ _ _ _ _ := hC
  suppress hC _ := hC
  lift hR := hR

namespace Engine

/-- **No pass has tried its own fixes.** -/
theorem untried_passOver (e : Engine) (tree : Node) :
    ∀ d ∈ (e.passOver tree).diagnostics, d.Untried := by
  rcases e.passOver_cases tree with hfailed | ⟨view, hpass⟩
  · rw [hfailed]
    exact fun d hd => absurd hd List.not_mem_nil
  · rw [hpass]
    exact (untriedLaw e.registry).rel_walk e.config.maxDepth (e.config.maxDepth + 1)
      (Graft.ofNode tree) (s := WalkState.start e.collector) (l := Location.root) trivial
      fun d hd => absurd hd List.not_mem_nil

end Engine

/-! ### The record of a pass -/

/-- The diagnostics of a pass over `tree`, each with what became of its fix when the edits of the
    pass were applied. Those of a pass without edits are left as they were emitted. -/
def PassResult.annotated (pass : PassResult) (tree : Node) : List Diagnostic :=
  if pass.edits.isEmpty then pass.diagnostics
  else pass.diagnostics.map fun d =>
    { d with status := (applyEdits tree pass.edits).statusOf d }

/-- No edits, no fixes. -/
theorem applied_applyEdits_of_isEmpty {q : EditQueue} (h : q.isEmpty = true) (tree : Node) :
    (applyEdits tree q).applied = [] := by
  have hnone : q.resolve.kept.hasWithin Location.root = false := by
    refine EditQueue.hasWithin_eq_false_iff.mpr fun m _ => ?_
    rw [EditQueue.get?_eq_none_iff]
    intro d hd
    have hnil : q.edits = [] := List.isEmpty_iff.mp h
    rw [EditQueue.mem_kept_resolve, hnil] at hd
    exact absurd hd.1 List.not_mem_nil
  unfold applyEdits
  simp only [rebuild_of_not_hasWithin hnone]

theorem statusOf_ne_applied_of_isEmpty {q : EditQueue} (h : q.isEmpty = true) (tree : Node)
    (d : Diagnostic) : (applyEdits tree q).statusOf d ≠ .applied := by
  unfold Applied.statusOf
  rw [applied_applyEdits_of_isEmpty h]
  simp only [List.contains_nil, Bool.false_eq_true, if_false]
  split_ifs <;> simp

/-- The diagnostics of the record that count as applied are those whose fixes the pass has made. -/
theorem PassResult.countP_annotated {pass : PassResult} (tree : Node)
    (h : ∀ d ∈ pass.diagnostics, d.Untried) :
    (pass.annotated tree).countP (·.status = .applied)
      = pass.diagnostics.countP fun d => (applyEdits tree pass.edits).statusOf d = .applied := by
  unfold annotated
  split
  · rename_i hempty
    refine List.countP_congr fun d hd => ?_
    have hstatus := statusOf_ne_applied_of_isEmpty hempty tree d
    rcases h d hd with huntried | huntried <;> simp [huntried, hstatus]
  · rw [List.countP_map]
    rfl

namespace Engine

/-- What the engine carries over from a pass, and what it notes of it, whether or not it goes on. -/
theorem absorb_diagnostics {p p' : Progress} {pass : PassResult}
    (h : absorb p pass = .settled p' ∨ absorb p pass = .changed p') :
    p'.history = p.carried ∧ p'.last = pass.annotated p.tree ∧
      p'.iterations = p.iterations + 1 := by
  unfold absorb at h
  unfold PassResult.annotated
  split at h
  · rename_i hempty
    rcases h with h | h
    · cases h
      exact ⟨rfl, (if_pos hempty).symm, rfl⟩
    · cases h
  · rename_i hedits
    simp only at h
    split at h
    · rcases h with h | h
      · cases h
        exact ⟨rfl, (if_neg hedits).symm, rfl⟩
      · cases h
    · rcases h with h | h
      · cases h
      · cases h
        exact ⟨rfl, (if_neg hedits).symm, rfl⟩

/-- The record of the pass over the tree after `i` passes. -/
def recordAt (e : Engine) (tree : Node) (i : Nat) : List Diagnostic :=
  (e.passOver (e.treeAt tree i)).annotated (e.treeAt tree i)

/-- The diagnostics whose fixes that pass has made. -/
def fixedAt (e : Engine) (tree : Node) (i : Nat) : List Diagnostic :=
  (e.recordAt tree i).filter (·.status = .applied)

end Engine

/-! ### The loop -/

/-- The invariant of the two lists: of the passes before the last one the diagnostics whose fixes
    were made, and of the last one all diagnostics. -/
structure Recorded (e : Engine) (tree : Node) (p : Progress) : Prop where
  history : p.history = (List.range (p.iterations - 1)).flatMap (e.fixedAt tree)
  last : p.last = if p.iterations = 0 then [] else e.recordAt tree (p.iterations - 1)

namespace Recorded

variable {e : Engine} {tree : Node} {p p' : Progress}

theorem start (e : Engine) (tree : Node) : Recorded e tree (Progress.start tree) := ⟨rfl, rfl⟩

/-- What is carried over are the fixes that all passes so far have made. -/
theorem carried (h : Recorded e tree p) :
    p.carried = (List.range p.iterations).flatMap (e.fixedAt tree) := by
  unfold Progress.carried
  rw [h.history, h.last]
  cases hn : p.iterations with
  | zero => rfl
  | succ n =>
    rw [if_neg (by omega), Nat.add_sub_cancel, List.range_succ, List.flatMap_append,
      List.flatMap_singleton]
    rfl

/-- **One round.** A further pass keeps the record. -/
theorem next (h : Recorded e tree p) (htree : p.tree = e.treeAt tree p.iterations)
    (habsorb : Engine.absorb p (e.passOver p.tree) = .settled p' ∨
      Engine.absorb p (e.passOver p.tree) = .changed p') : Recorded e tree p' := by
  obtain ⟨hhistory, hlast, hiterations⟩ := Engine.absorb_diagnostics habsorb
  constructor
  · rw [hhistory, h.carried, hiterations, Nat.add_sub_cancel]
  · rw [hlast, hiterations, if_neg (by omega), Nat.add_sub_cancel, htree]
    rfl

end Recorded

/-- **The whole loop.** It ends with a recorded state. -/
theorem recorded_fixFrom {e : Engine} {tree : Node} {p : Progress} {passes : Nat}
    (hp : Progressed e tree p) (hrecord : Recorded e tree p) {cancelled : Bool}
    {visits : Array Visit} {o : Outcome}
    (h : (e.fixFrom passes cancelled visits p).result = .ok o) :
    ∃ p' converged, Recorded e tree p' ∧ o = p'.finish converged e.config.fixIterationCap := by
  induction passes generalizing p cancelled visits with
  | zero => exact ⟨p, false, hrecord, (Except.ok.inj h).symm⟩
  | succ passes ih =>
    obtain ⟨-, hpass, hround⟩ := Engine.fixFrom_succ_cases h
    rcases hround with ⟨p', hsettled, rfl⟩ | ⟨p', cancelled', visits', hchanged, hrest⟩
    · exact ⟨p', true, hrecord.next hp.tree_eq (.inl hsettled), rfl⟩
    · rcases Engine.absorb_cases p (e.passOver p.tree) with ⟨-, p₁, habsorb, -⟩ |
        ⟨hgo, p₁, habsorb, htree, hiterations, hnotes⟩
      · exact absurd (habsorb.symm.trans hchanged) (by simp)
      · obtain rfl : p₁ = p' := Engine.Verdict.changed.inj (habsorb.symm.trans hchanged)
        exact ih (hp.next hpass hgo htree hiterations hnotes)
          (hrecord.next hp.tree_eq (.inr hchanged)) hrest

namespace Engine

/-- A fixing run reports the record of its last pass after the fixes of the passes before it. -/
theorem diagnostics_of_run {e : Engine} {tree : Node} {cancelled : Bool} {o : Outcome}
    (hfix : e.config.applyFixes = true) (h : (e.run cancelled tree).result = .ok o)
    (hpos : 1 ≤ o.iterations) :
    o.diagnostics = (List.range (o.iterations - 1)).flatMap (e.fixedAt tree)
      ++ e.recordAt tree (o.iterations - 1) := by
  unfold Engine.run at h
  rw [if_pos hfix] at h
  obtain ⟨p, converged, hrecord, rfl⟩ :=
    recorded_fixFrom (Progressed.start e tree) (Recorded.start e tree) h
  have hiterations : 1 ≤ p.iterations := hpos
  have hlast := hrecord.last
  rw [if_neg (by omega)] at hlast
  show p.history ++ p.last = (List.range (p.iterations - 1)).flatMap (e.fixedAt tree)
    ++ e.recordAt tree (p.iterations - 1)
  rw [hrecord.history, hlast]

/-- **The diagnostics of a run.** Whatever the rules, the settings and the tree, with fixes on: a
    run of `n` passes that succeeds reports, of each of its first `n - 1` passes in order, the
    diagnostics whose fixes that pass has made, and then all diagnostics of the last pass with what
    became of their fixes. So every fix that a pass has made is counted, and none twice. -/
theorem run_diagnostics (registry : Registry) (config : Config) (e : Engine)
    (he : Engine.new registry config = .ok e) (hfix : config.applyFixes = true) (cancelled : Bool)
    (tree : Node) (o : Outcome) (h : (e.run cancelled tree).result = .ok o) :
    1 ≤ o.iterations ∧
      (∀ i < o.iterations,
        (e.runPass false (e.treeAt tree i)).result = .ok (e.passOver (e.treeAt tree i))) ∧
      o.diagnostics
        = ((List.range (o.iterations - 1)).flatMap fun i =>
            (e.recordAt tree i).filter (·.status = .applied))
          ++ e.recordAt tree (o.iterations - 1) ∧
      o.appliedCount
        = ((List.range o.iterations).map fun i =>
            (e.passOver (e.treeAt tree i)).diagnostics.countP fun d =>
              (e.applied (e.treeAt tree i)).statusOf d = .applied).sum := by
  obtain ⟨rfl, hpos⟩ := eq_of_new he
  have hloop := h
  unfold Engine.run at hloop
  rw [if_pos hfix] at hloop
  have hrun := (Progressed.start _ tree).isFixRun_fixFrom (Nat.zero_add _) hpos hloop
  have hdiagnostics := diagnostics_of_run hfix h hrun.iterations_pos
  refine ⟨hrun.iterations_pos, hrun.passes, hdiagnostics, ?_⟩
  -- The last pass adds what it has made to the fixes of the passes before it.
  obtain ⟨n, hn⟩ := Nat.exists_eq_succ_of_ne_zero (Nat.ne_of_gt hrun.iterations_pos)
  have hcount : ∀ i, (Engine.recordAt ⟨registry, config⟩ tree i).countP (·.status = .applied)
      = (Engine.passOver ⟨registry, config⟩
          (Engine.treeAt ⟨registry, config⟩ tree i)).diagnostics.countP
          fun d => (Engine.applied ⟨registry, config⟩
            (Engine.treeAt ⟨registry, config⟩ tree i)).statusOf d = .applied :=
    fun i => PassResult.countP_annotated _ (untried_passOver _ _)
  simp only [← hcount]
  unfold Outcome.appliedCount
  rw [hdiagnostics, hn, Nat.succ_sub_one, List.range_succ, List.map_append, List.sum_append,
    List.countP_append, List.countP_flatMap]
  simp [fixedAt, List.countP_filter, Function.comp_def]

end Engine

/-- Report the nodes of one kind with a replacement, before their children are walked, where that
    changes them. -/
def repairing (name : String) (kind : Kind) (change : Node → Node) : Rule where
  name := name
  category := ⟨"SAMPLE"⟩
  accepts k := k = kind
  enter := some fun p c =>
    if change p.node == p.node then .nothing
    else .repair p c ⟨"SAMPLE"⟩ ⟨name⟩ (change p.node)
  exit := none

/-- Rules for the sample. The repair of a list comes before that of its items, which has to wait for
    the next pass. -/
def repairRegistry : Registry where
  rules :=
    [ repairing "ordered-lists" .element fun n => n.withPayload (n.payload.withName "ol"),
      repairing "same-text" .text fun n => n.withPayload (n.payload.withValue "b") ]
  supports _ := true
  names_nodup := by decide

/-- Of the first pass over the sample the repair of the first item is not carried over, because it
    was superseded; the second pass makes it. A single pass reports it as superseded. -/
theorem run_diagnostics_sample :
    (∃ o, (Engine.run ⟨repairRegistry, sampleConfig 5⟩ false sampleTree).result = .ok o ∧
        o.iterations = 3 ∧
        o.diagnostics.map (fun d => (d.location.node, d.status))
          = [(⟨[0]⟩, .applied), (⟨[2]⟩, .applied), (⟨[0, 0]⟩, .applied)] ∧
        o.appliedCount = ((List.range o.iterations).map fun i =>
          (Engine.passOver ⟨repairRegistry, sampleConfig 5⟩
            (Engine.treeAt ⟨repairRegistry, sampleConfig 5⟩ sampleTree i)).diagnostics.countP
            fun d => (Engine.applied ⟨repairRegistry, sampleConfig 5⟩
              (Engine.treeAt ⟨repairRegistry, sampleConfig 5⟩ sampleTree i)).statusOf d
                = .applied).sum) ∧
      (∃ o, (Engine.run ⟨repairRegistry, sampleConfig 1⟩ false sampleTree).result = .ok o ∧
        o.diagnostics.map (fun d => (d.location.node, d.status))
          = [(⟨[0]⟩, .applied), (⟨[0, 0]⟩, .superseded), (⟨[2]⟩, .applied)] ∧
        o.diagnostics = Engine.recordAt ⟨repairRegistry, sampleConfig 1⟩ sampleTree 0) := by
  constructor
  · have hrun : ((Engine.run ⟨repairRegistry, sampleConfig 5⟩ false sampleTree).result.toOption.map
        fun o => (o.iterations, o.diagnostics.map fun d => (d.location.node, d.status)))
        = some (3, [(⟨[0]⟩, .applied), (⟨[2]⟩, .applied), (⟨[0, 0]⟩, .applied)]) := by
      decide +kernel
    obtain ⟨o, hresult, hvalues⟩ := exists_ok_of_map_toOption hrun
    simp only [Prod.mk.injEq] at hvalues
    exact ⟨o, hresult, hvalues.1, hvalues.2,
      (Engine.run_diagnostics repairRegistry (sampleConfig 5) _ rfl rfl false sampleTree o
        hresult).2.2.2⟩
  · have hrun : ((Engine.run ⟨repairRegistry, sampleConfig 1⟩ false sampleTree).result.toOption.map
        fun o => (o.iterations, o.diagnostics.map fun d => (d.location.node, d.status)))
        = some (1, [(⟨[0]⟩, .applied), (⟨[0, 0]⟩, .superseded), (⟨[2]⟩, .applied)]) := by
      decide +kernel
    obtain ⟨o, hresult, hvalues⟩ := exists_ok_of_map_toOption hrun
    simp only [Prod.mk.injEq] at hvalues
    have hdiagnostics := (Engine.run_diagnostics repairRegistry (sampleConfig 1) _ rfl rfl false
      sampleTree o hresult).2.2.1
    rw [hvalues.1] at hdiagnostics
    exact ⟨o, hresult, hvalues.2, hdiagnostics⟩

end TreeLint
