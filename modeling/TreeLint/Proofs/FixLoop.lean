import Mathlib
import TreeLint.Engine
import TreeLint.Layout.Formatter
import TreeLint.Proofs.Application
import TreeLint.Proofs.Traversal

namespace TreeLint

/-!
# The fixing loop

With fixes on, the engine makes passes and applies the edits of each pass to the tree that the pass
was made over. The loop has three ways out: a pass without edits, edits that come to nothing, and
the limit of passes.

* `Engine.treeAt` is the sequence of trees: the tree that is given, and then what each pass makes of
  the tree before it. It does not mention the loop.
* `PassResult.Settles` says when a pass leaves nothing to do, and `absorb_cases` that this is what
  the engine goes by.
* `IsFixRun` says what the outcome of a run has to be in terms of `treeAt`. `Progressed` is the
  invariant of the loop, kept by `Progressed.next`; `run_isFixRun` is the result.
* `run_converged_again`: a run over a tree on which a run has converged stops at once and returns
  that tree.
-/

/-! ### Passes -/

/-- The pass leaves nothing to do: it has no edits, none of them is made, or they give the same tree
    up to spans. -/
def PassResult.Settles (pass : PassResult) (tree : Node) : Prop :=
  pass.edits.isEmpty = true ∨ (applyEdits tree pass.edits).changed = false ∨
    ((applyEdits tree pass.edits).tree == tree) = true

/-- The pass that a walk over a tree makes. -/
def Run.ofWalk (cancelled : Bool) (walked : Walked (Option Node)) : Run PassResult where
  result := walked.1.map fun view => ⟨walked.2.collector.diagnostics, walked.2.edits, view⟩
  cancelled := cancelled || walked.2.cancelled
  visits := walked.2.visits

theorem Engine.runPass_eq_ofWalk (e : Engine) (cancelled : Bool) (tree : Node) :
    e.runPass cancelled tree
      = .ofWalk cancelled (traverse e.registry e.config.maxDepth tree e.collector) := rfl

/-- Where nothing is queued there are no conflicts. -/
theorem conflicts_applyEdits_of_isEmpty {q : EditQueue} (h : q.isEmpty = true) (tree : Node) :
    (applyEdits tree q).conflicts = [] := by
  have hnil : q.edits = [] := List.isEmpty_iff.mp h
  rw [(resolution_applyEdits tree q).1, EditQueue.conflicts_resolve, hnil]
  rfl

/-- The run has come from `p` to `p'` by a pass with these conflicts: both records that it keeps of
    them have grown by them, the list of conflicts and the list of warnings. -/
structure Progress.Notes (p p' : Progress) (conflicts : List Conflict) : Prop where
  conflicts_eq : p'.conflicts = p.conflicts ++ conflicts
  warnings_eq : p'.warnings = p.warnings ++ conflicts.map .conflict

namespace Engine

/-- **What the engine makes of a pass.** It stops with the present tree exactly if the pass settles
    it, and else goes on with the tree after the edits. The conflicts of the pass are noted either
    way. -/
theorem absorb_cases (p : Progress) (pass : PassResult) :
    (pass.Settles p.tree ∧ ∃ p', absorb p pass = .settled p' ∧ p'.tree = p.tree ∧
        p'.iterations = p.iterations + 1 ∧
        p.Notes p' (applyEdits p.tree pass.edits).conflicts) ∨
      (¬ pass.Settles p.tree ∧ ∃ p', absorb p pass = .changed p' ∧
        p'.tree = (applyEdits p.tree pass.edits).tree ∧ p'.iterations = p.iterations + 1 ∧
        p.Notes p' (applyEdits p.tree pass.edits).conflicts) := by
  unfold absorb
  split
  · rename_i hempty
    refine .inl ⟨.inl hempty, _, rfl, rfl, rfl, ?_⟩
    -- Without edits there is nothing to note.
    rw [conflicts_applyEdits_of_isEmpty hempty]
    exact ⟨(List.append_nil _).symm, (List.append_nil _).symm⟩
  · rename_i hedits
    simp only
    split
    · rename_i hstop
      rw [Bool.or_eq_true, Bool.not_eq_true'] at hstop
      exact .inl ⟨.inr hstop, _, rfl, rfl, rfl, rfl, rfl⟩
    · rename_i hgo
      rw [Bool.or_eq_true, Bool.not_eq_true'] at hgo
      refine .inr ⟨?_, _, rfl, rfl, rfl, rfl, rfl⟩
      rintro (hempty | hstop)
      · exact hedits hempty
      · exact hgo hstop

/-- The result of the pass over a tree; a pass that fails counts as one without edits. -/
def passOver (e : Engine) (tree : Node) : PassResult :=
  (e.runPass false tree).result.toOption.getD ⟨[], EditQueue.empty, some tree⟩

/-- The pass over a tree is what the run of it gives. -/
theorem passOver_of_ok {e : Engine} {tree : Node} {pass : PassResult}
    (h : (e.runPass false tree).result = .ok pass) : e.passOver tree = pass := by
  rw [passOver, h]
  rfl

/-- Unless the pass fails, it reports and queues what the walk over the tree does. -/
theorem passOver_cases (e : Engine) (tree : Node) :
    e.passOver tree = ⟨[], EditQueue.empty, some tree⟩ ∨
      ∃ view, e.passOver tree
        = ⟨(traverse e.registry e.config.maxDepth tree e.collector).2.collector.diagnostics,
          (traverse e.registry e.config.maxDepth tree e.collector).2.edits, view⟩ := by
  unfold passOver
  rw [runPass_eq_ofWalk]
  unfold Run.ofWalk
  cases (traverse e.registry e.config.maxDepth tree e.collector).1 with
  | error err => exact .inl rfl
  | ok view => exact .inr ⟨view, rfl⟩

/-- What applying the edits of the pass over a tree to that tree comes to. -/
def applied (e : Engine) (tree : Node) : Applied := applyEdits tree (e.passOver tree).edits

/-- The tree after a number of passes, each of whose edits are applied to the tree before it. -/
def treeAt (e : Engine) (tree : Node) : Nat → Node
  | 0 => tree
  | i + 1 => (e.applied (e.treeAt tree i)).tree

/-- A round of the loop that leads to an outcome: the run was not cancelled, the pass succeeded, and
    the loop either ended or went on. -/
theorem fixFrom_succ_cases {e : Engine} {passes : Nat} {cancelled : Bool} {visits : Array Visit}
    {p : Progress} {o : Outcome}
    (h : (e.fixFrom (passes + 1) cancelled visits p).result = .ok o) :
    cancelled = false ∧ (e.runPass false p.tree).result = .ok (e.passOver p.tree) ∧
      ((∃ p', absorb p (e.passOver p.tree) = .settled p' ∧
          o = p'.finish true e.config.fixIterationCap) ∨
        ∃ p' cancelled' visits', absorb p (e.passOver p.tree) = .changed p' ∧
          (e.fixFrom passes cancelled' visits' p').result = .ok o) := by
  rw [fixFrom] at h
  cases cancelled with
  | true => exact absurd h (by simp)
  | false =>
    rw [if_neg Bool.false_ne_true] at h
    cases hpass : (e.runPass false p.tree).result with
    | error err => simp [hpass] at h
    | ok pass =>
      rw [passOver_of_ok hpass]
      refine ⟨rfl, rfl, ?_⟩
      simp only [hpass] at h
      -- The verdict of the pass decides whether the loop goes on.
      cases habsorb : absorb p pass with
      | settled p' =>
        rw [habsorb] at h
        exact .inl ⟨p', rfl, (Except.ok.inj h).symm⟩
      | changed p' =>
        rw [habsorb] at h
        exact .inr ⟨p', _, _, rfl, h⟩

end Engine

/-! ### The loop -/

/-- The number of passes that changed the tree: all of them, less the last one when that settled
    it. -/
def Outcome.changes (o : Outcome) : Nat := if o.converged then o.iterations - 1 else o.iterations

/-- What the outcome of a fixing run over `tree` has to be, in terms of the trees of
    `Engine.treeAt`. -/
structure IsFixRun (e : Engine) (tree : Node) (o : Outcome) : Prop where
  /-- There is at least one pass, and there are not more than allowed. -/
  iterations_pos : 1 ≤ o.iterations
  iterations_le : o.iterations ≤ e.config.fixIterationCap
  /-- All passes that are allowed are made if the run does not converge. -/
  iterations_eq : o.converged = false → o.iterations = e.config.fixIterationCap
  /-- The passes succeed. -/
  passes : ∀ i < o.iterations,
    (e.runPass false (e.treeAt tree i)).result = .ok (e.passOver (e.treeAt tree i))
  /-- The run returns the tree after the passes that changed it, spans included. -/
  tree_eq : o.tree = e.treeAt tree o.changes
  /-- Each of these gave a tree that is structurally another one. -/
  progress : ∀ i < o.changes, (e.treeAt tree (i + 1) == e.treeAt tree i) = false
  /-- When the run converges, the last pass leaves nothing to do. -/
  settles : o.converged = true → (e.passOver o.tree).Settles o.tree
  /-- The conflicts of all passes, in the order of the passes. -/
  conflicts : o.conflicts
    = (List.range o.iterations).flatMap fun i => (e.applied (e.treeAt tree i)).conflicts
  /-- A warning for each conflict, and one more exactly if the run does not converge. -/
  warnings : o.warnings = o.conflicts.map .conflict ++
    if o.converged then [] else [.fixLimitReached e.config.fixIterationCap]

/-- The invariant of the loop: so many passes have been made, and each has changed the tree. -/
structure Progressed (e : Engine) (tree : Node) (p : Progress) : Prop where
  tree_eq : p.tree = e.treeAt tree p.iterations
  passes : ∀ i < p.iterations,
    (e.runPass false (e.treeAt tree i)).result = .ok (e.passOver (e.treeAt tree i))
  progress : ∀ i < p.iterations, (e.treeAt tree (i + 1) == e.treeAt tree i) = false
  conflicts : p.conflicts
    = (List.range p.iterations).flatMap fun i => (e.applied (e.treeAt tree i)).conflicts
  /-- So far there has been a warning for each conflict, and no other. -/
  warnings : p.warnings = p.conflicts.map .conflict

namespace Progressed

variable {e : Engine} {tree : Node} {p p' : Progress}

/-- Before the first pass nothing has been done to the tree. -/
theorem start (e : Engine) (tree : Node) : Progressed e tree (Progress.start tree) where
  tree_eq := rfl
  passes _ hi := absurd hi (Nat.not_lt_zero _)
  progress _ hi := absurd hi (Nat.not_lt_zero _)
  conflicts := rfl
  warnings := rfl

/-- A further pass that succeeds is one more successful pass. -/
theorem passes_succ (hp : Progressed e tree p)
    (hpass : (e.runPass false p.tree).result = .ok (e.passOver p.tree)) :
    ∀ i < p.iterations + 1,
      (e.runPass false (e.treeAt tree i)).result = .ok (e.passOver (e.treeAt tree i)) := by
  intro i hi
  rcases Nat.lt_succ_iff_lt_or_eq.mp hi with hlt | rfl
  · exact hp.passes i hlt
  · rw [← hp.tree_eq]
    exact hpass

/-- The conflicts of a further pass come after those before. -/
theorem conflicts_succ (hp : Progressed e tree p)
    (hnotes : p.Notes p' (applyEdits p.tree (e.passOver p.tree).edits).conflicts) :
    p'.conflicts = (List.range (p.iterations + 1)).flatMap
      fun i => (e.applied (e.treeAt tree i)).conflicts := by
  rw [List.range_succ, List.flatMap_append, List.flatMap_singleton, ← hp.conflicts, ← hp.tree_eq]
  exact hnotes.conflicts_eq

/-- The two records of the conflicts stay in step. -/
theorem warnings_succ (hp : Progressed e tree p) {conflicts : List Conflict}
    (hnotes : p.Notes p' conflicts) : p'.warnings = p'.conflicts.map .conflict := by
  rw [hnotes.warnings_eq, hnotes.conflicts_eq, List.map_append, hp.warnings]

/-- **One round.** A pass that succeeds and does not settle the tree keeps the invariant. -/
theorem next (hp : Progressed e tree p)
    (hpass : (e.runPass false p.tree).result = .ok (e.passOver p.tree))
    (hgo : ¬ (e.passOver p.tree).Settles p.tree)
    (htree : p'.tree = (applyEdits p.tree (e.passOver p.tree).edits).tree)
    (hiterations : p'.iterations = p.iterations + 1)
    (hnotes : p.Notes p' (applyEdits p.tree (e.passOver p.tree).edits).conflicts) :
    Progressed e tree p' where
  tree_eq := by
    rw [hiterations, htree, hp.tree_eq]
    rfl
  passes := hiterations ▸ hp.passes_succ hpass
  progress := by
    intro i hi
    rw [hiterations] at hi
    rcases Nat.lt_succ_iff_lt_or_eq.mp hi with hlt | rfl
    · exact hp.progress i hlt
    · rw [hp.tree_eq] at hgo
      exact Bool.eq_false_iff.mpr fun hsame => hgo (.inr (.inr hsame))
  conflicts := by
    rw [hiterations]
    exact hp.conflicts_succ hnotes
  warnings := hp.warnings_succ hnotes

/-- The end of the loop by a pass that settles the tree. -/
theorem isFixRun_of_settles (hp : Progressed e tree p)
    (hcap : p.iterations < e.config.fixIterationCap)
    (hpass : (e.runPass false p.tree).result = .ok (e.passOver p.tree))
    (hstop : (e.passOver p.tree).Settles p.tree) (htree : p'.tree = p.tree)
    (hiterations : p'.iterations = p.iterations + 1)
    (hnotes : p.Notes p' (applyEdits p.tree (e.passOver p.tree).edits).conflicts) :
    IsFixRun e tree (p'.finish true e.config.fixIterationCap) := by
  have hchanges : (p'.finish true e.config.fixIterationCap).changes = p.iterations := by
    show p'.iterations - 1 = p.iterations
    omega
  -- The last pass is counted, but it has changed nothing.
  refine { iterations_pos := ?_, iterations_le := ?_, iterations_eq := ?_, passes := ?_,
           tree_eq := ?_, progress := ?_, settles := ?_, conflicts := ?_, warnings := ?_ }
  · show 1 ≤ p'.iterations
    omega
  · show p'.iterations ≤ e.config.fixIterationCap
    omega
  · exact fun hconverged => Bool.noConfusion hconverged
  · show ∀ i < p'.iterations, _
    rw [hiterations]
    exact hp.passes_succ hpass
  · rw [hchanges]
    exact htree.trans hp.tree_eq
  · rw [hchanges]
    exact hp.progress
  · intro _
    show (e.passOver p'.tree).Settles p'.tree
    rw [htree]
    exact hstop
  · show p'.conflicts = (List.range p'.iterations).flatMap _
    rw [hiterations]
    exact hp.conflicts_succ hnotes
  · show p'.warnings = p'.conflicts.map .conflict ++ []
    rw [List.append_nil]
    exact hp.warnings_succ hnotes

/-- The end of the loop by the limit of passes. -/
theorem isFixRun_of_capped (hp : Progressed e tree p)
    (hcap : p.iterations = e.config.fixIterationCap) (hpos : 0 < e.config.fixIterationCap) :
    IsFixRun e tree (p.finish false e.config.fixIterationCap) where
  iterations_pos := by
    show 1 ≤ p.iterations
    omega
  iterations_le := hcap.le
  iterations_eq _ := hcap
  passes := hp.passes
  tree_eq := hp.tree_eq
  progress := hp.progress
  settles h := Bool.noConfusion h
  conflicts := hp.conflicts
  warnings := by
    show p.warnings ++ _ = p.conflicts.map .conflict ++ _
    rw [hp.warnings]
    rfl

/-- **The whole loop.** From a state that the invariant holds of, with all passes left that the
    limit allows, the loop ends as it should. -/
theorem isFixRun_fixFrom (hp : Progressed e tree p) {passes : Nat}
    (hcap : p.iterations + passes = e.config.fixIterationCap)
    (hpos : 0 < e.config.fixIterationCap) {cancelled : Bool} {visits : Array Visit} {o : Outcome}
    (h : (e.fixFrom passes cancelled visits p).result = .ok o) : IsFixRun e tree o := by
  induction passes generalizing p cancelled visits with
  | zero =>
    obtain rfl : p.finish false e.config.fixIterationCap = o := Except.ok.inj h
    exact hp.isFixRun_of_capped hcap hpos
  | succ passes ih =>
    obtain ⟨-, hpass, hround⟩ := Engine.fixFrom_succ_cases h
    rcases Engine.absorb_cases p (e.passOver p.tree) with
      ⟨hstop, p₁, habsorb, htree, hiterations, hnotes⟩ |
        ⟨hgo, p₁, habsorb, htree, hiterations, hnotes⟩
    · rcases hround with ⟨p', hsettled, rfl⟩ | ⟨p', _, _, hchanged, -⟩
      · obtain rfl : p₁ = p' := Engine.Verdict.settled.inj (habsorb.symm.trans hsettled)
        exact hp.isFixRun_of_settles (by omega) hpass hstop htree hiterations hnotes
      · exact absurd (habsorb.symm.trans hchanged) (by simp)
    · rcases hround with ⟨p', hsettled, -⟩ | ⟨p', _, _, hchanged, hrest⟩
      · exact absurd (habsorb.symm.trans hsettled) (by simp)
      · obtain rfl : p₁ = p' := Engine.Verdict.changed.inj (habsorb.symm.trans hchanged)
        exact ih (hp.next hpass hgo htree hiterations hnotes) (by omega) hrest

end Progressed

namespace Engine

/-- An engine has the settings that it was made with, and they allow at least one pass. -/
theorem eq_of_new {registry : Registry} {config : Config} {e : Engine}
    (h : Engine.new registry config = .ok e) :
    e = ⟨registry, config⟩ ∧ 0 < config.fixIterationCap := by
  unfold Engine.new Config.validate at h
  split at h
  · exact absurd h (by simp [Except.map])
  · split at h
    · exact absurd h (by simp [Except.map])
    · rename_i hcap
      exact ⟨(Except.ok.inj h).symm, Nat.pos_of_ne_zero hcap⟩

/-- **The fixing loop is an iteration.** Whatever the rules, the settings and the tree, with fixes
    on: a run that succeeds goes through the trees of `treeAt` as long as they differ structurally
    and the limit allows, returns the last one that it reached, and reports the conflicts of all its
    passes. -/
theorem run_isFixRun (registry : Registry) (config : Config) (e : Engine)
    (he : Engine.new registry config = .ok e) (hfix : config.applyFixes = true) (cancelled : Bool)
    (tree : Node) (o : Outcome) (h : (e.run cancelled tree).result = .ok o) :
    IsFixRun e tree o := by
  obtain ⟨rfl, hpos⟩ := eq_of_new he
  unfold Engine.run at h
  rw [if_pos hfix] at h
  exact (Progressed.start _ tree).isFixRun_fixFrom (Nat.zero_add _) hpos h

end Engine

/-- Replace the nodes of one kind before their children are walked, where that changes them. -/
def replacing (name : String) (kind : Kind) (change : Node → Node) : Rule where
  name := name
  category := ⟨"SAMPLE"⟩
  accepts k := k = kind
  enter := some fun p _ => { transform := .replace (.ofNode (change p.node)) }
  exit := none

/-- Rules for the sample. The first one replaces a list whose items the second one replaces later,
    so that the two are in conflict. The third one moves comments to and fro: it queues edits in
    every pass, but they make no difference up to spans. -/
def sampleRegistry : Registry where
  rules :=
    [ replacing "ordered-lists" .element fun n => n.withPayload (n.payload.withName "ol"),
      replacing "same-text" .text fun n => n.withPayload (n.payload.withValue "b"),
      { name := "restless-comments"
        category := ⟨"SAMPLE"⟩
        accepts := fun k => k = .comment
        enter := none
        exit := some fun p _ =>
          { edits := [.replace 0 (.ofNode (p.node.withSpan
              (if p.node.span = .zero then ⟨0, 7, by decide⟩ else .zero)))] } } ]
  supports _ := true
  names_nodup := by decide

/-- The settings for the sample. -/
def sampleConfig (cap : Nat) : Config := { applyFixes := true, fixIterationCap := cap }

/-- A run has an outcome if something is known of it. -/
theorem exists_ok_of_map_toOption {α β : Type} {r : Except Error α} {f : α → β} {b : β}
    (h : r.toOption.map f = some b) : ∃ a, r = .ok a ∧ f a = b := by
  cases r with
  | error err => exact absurd h.symm (Option.some_ne_none b)
  | ok a => exact ⟨a, rfl, Option.some.inj h⟩

/-- The sample converges in the third pass; two passes are not enough. -/
theorem run_isFixRun_sample :
    (∃ o, (Engine.run ⟨sampleRegistry, sampleConfig 5⟩ false sampleTree).result = .ok o ∧
        o.iterations = 3 ∧ o.converged = true ∧ o.conflicts = [⟨⟨[0]⟩, ⟨[0, 0]⟩⟩] ∧
        IsFixRun ⟨sampleRegistry, sampleConfig 5⟩ sampleTree o) ∧
      (∃ o, (Engine.run ⟨sampleRegistry, sampleConfig 2⟩ false sampleTree).result = .ok o ∧
        o.iterations = 2 ∧ o.converged = false ∧
        IsFixRun ⟨sampleRegistry, sampleConfig 2⟩ sampleTree o) := by
  constructor
  · have hrun : ((Engine.run ⟨sampleRegistry, sampleConfig 5⟩ false sampleTree).result.toOption.map
        fun o => (o.iterations, o.converged, o.conflicts))
        = some (3, true, [⟨⟨[0]⟩, ⟨[0, 0]⟩⟩]) := by decide +kernel
    obtain ⟨o, hresult, hvalues⟩ := exists_ok_of_map_toOption hrun
    simp only [Prod.mk.injEq] at hvalues
    obtain ⟨hiterations, hconverged, hconflicts⟩ := hvalues
    exact ⟨o, hresult, hiterations, hconverged, hconflicts,
      Engine.run_isFixRun sampleRegistry (sampleConfig 5) _ rfl rfl false sampleTree o hresult⟩
  · have hrun : ((Engine.run ⟨sampleRegistry, sampleConfig 2⟩ false sampleTree).result.toOption.map
        fun o => (o.iterations, o.converged)) = some (2, false) := by decide +kernel
    obtain ⟨o, hresult, hvalues⟩ := exists_ok_of_map_toOption hrun
    simp only [Prod.mk.injEq] at hvalues
    obtain ⟨hiterations, hconverged⟩ := hvalues
    exact ⟨o, hresult, hiterations, hconverged,
      Engine.run_isFixRun sampleRegistry (sampleConfig 2) _ rfl rfl false sampleTree o hresult⟩

/-! ### Once more over the same tree -/

/-- No callback of the registry cancels the run. -/
def Registry.NeverCancels (registry : Registry) : Prop :=
  ∀ r ∈ registry.rules, ∀ phase callback, r.callback? phase = some callback →
    ∀ p c, (callback p c).cancels = false

/-- Walks leave the state of cancellation alone if no callback cancels. -/
theorem cancelLaw {registry : Registry} (h : registry.NeverCancels) :
    WalkLaw registry (fun _ _ _ _ => True) fun a b => b.cancelled = a.cancelled where
  refl _ := rfl
  trans hab hbc := hbc.trans hab
  stable hC _ := hC
  react := by
    intro found l above s r phase callback hr hcallback _ graft
    show (s.cancelled || (callback _ _).cancels) = s.cancelled
    rw [h r hr phase callback hcallback, Bool.or_false]
  child hC _ _ _ _ _ := hC
  suppress hC _ := hC
  lift hR := hR

namespace Engine

variable {e : Engine}

/-- If no callback cancels, a pass leaves a run as cancelled as it was. -/
theorem cancelled_runPass (h : e.registry.NeverCancels) (cancelled : Bool) (tree : Node) :
    (e.runPass cancelled tree).cancelled = cancelled := by
  have hwalk : (traverse e.registry e.config.maxDepth tree e.collector).2.cancelled = false :=
    (cancelLaw h).rel_walk e.config.maxDepth (e.config.maxDepth + 1) (Graft.ofNode tree) trivial
  show (cancelled || (traverse e.registry e.config.maxDepth tree e.collector).2.cancelled)
    = cancelled
  rw [hwalk, Bool.or_false]

/-- A loop whose callbacks never cancel leaves the state of cancellation alone. -/
theorem cancelled_fixFrom (h : e.registry.NeverCancels) (passes : Nat) (cancelled : Bool)
    (visits : Array Visit) (p : Progress) :
    (e.fixFrom passes cancelled visits p).cancelled = cancelled := by
  induction passes generalizing visits p with
  | zero => rfl
  | succ passes ih =>
    have hpass := cancelled_runPass h cancelled p.tree
    rw [fixFrom]
    split
    · rfl
    · simp only [hpass]
      split
      · rfl
      · split
        · rfl
        · exact ih _ _

/-- A pass that settles the tree ends the loop. -/
theorem fixFrom_of_settles {p : Progress} {pass : PassResult}
    (hpass : (e.runPass false p.tree).result = .ok pass) (hstop : pass.Settles p.tree)
    (passes : Nat) (visits : Array Visit) :
    ∃ o, (e.fixFrom (passes + 1) false visits p).result = .ok o ∧ o.converged = true ∧
      o.iterations = p.iterations + 1 ∧ o.tree = p.tree := by
  rcases absorb_cases p pass with ⟨-, p', habsorb, htree, hiterations, -⟩ | ⟨hgo, -⟩
  · rw [fixFrom, if_neg Bool.false_ne_true]
    simp only [hpass, habsorb]
    exact ⟨_, rfl, rfl, hiterations, htree⟩
  · exact absurd hstop hgo

/-- **Fixing is idempotent once it converges.** Whatever the settings and the tree, with fixes on
    and rules that never cancel: if a run converges, a run over the tree that it returns converges
    in one pass and returns that tree, spans included, which is therefore formatted as before. -/
theorem run_converged_again (registry : Registry) (config : Config) (e : Engine)
    (he : Engine.new registry config = .ok e) (hfix : config.applyFixes = true)
    (hnever : registry.NeverCancels) (cancelled : Bool) (tree : Node) (o : Outcome)
    (h : (e.run cancelled tree).result = .ok o) (hconverged : o.converged = true) :
    ∃ o', (e.run (e.run cancelled tree).cancelled o.tree).result = .ok o' ∧
      o'.converged = true ∧ o'.iterations = 1 ∧ o'.tree = o.tree ∧
      ∀ options, format options o'.tree = format options o.tree := by
  obtain ⟨rfl, hpos⟩ := eq_of_new he
  obtain ⟨passes, hpasses⟩ := Nat.exists_eq_succ_of_ne_zero hpos.ne'
  unfold Engine.run at h ⊢
  rw [if_pos hfix] at h
  rw [if_pos hfix, if_pos hfix, cancelled_fixFrom hnever]
  -- The last pass was made over the tree that the run returned, and it left nothing to do.
  have hrun := (Progressed.start _ tree).isFixRun_fixFrom (Nat.zero_add _) hpos h
  have hchanges : o.changes = o.iterations - 1 := if_pos hconverged
  have hlast : o.changes < o.iterations := by
    have := hrun.iterations_pos
    omega
  have hpass := hrun.passes o.changes hlast
  rw [← hrun.tree_eq] at hpass
  have hnotCancelled : cancelled = false := by
    simp only [hpasses] at h
    exact (fixFrom_succ_cases h).1
  obtain ⟨o', hresult, hconverged', hiterations, htree⟩ :=
    fixFrom_of_settles (p := Progress.start o.tree) hpass (hrun.settles hconverged) passes #[]
  refine ⟨o', ?_, hconverged', hiterations, htree, fun options => by rw [htree]; rfl⟩
  simp only [hnotCancelled, hpasses]
  exact hresult

end Engine

theorem neverCancels_sampleRegistry : sampleRegistry.NeverCancels := by
  intro r hr phase callback hcallback p c
  simp only [sampleRegistry, List.mem_cons, List.not_mem_nil, or_false] at hr
  rcases hr with rfl | rfl | rfl
  · cases phase <;> cases hcallback
    rfl
  · cases phase <;> cases hcallback
    rfl
  · cases phase <;> cases hcallback
    rfl

/-- The last pass over the sample would still have moved the comment, away from 0. -/
theorem run_converged_again_sample :
    ∃ o, (Engine.run ⟨sampleRegistry, sampleConfig 5⟩ false sampleTree).result = .ok o ∧
      o.converged = true ∧ o.iterations = 3 ∧
      (o.tree.get? ⟨[1]⟩).map (·.span.stop) = some 0 ∧
      ∃ o', (Engine.run ⟨sampleRegistry, sampleConfig 5⟩
          (Engine.run ⟨sampleRegistry, sampleConfig 5⟩ false sampleTree).cancelled o.tree).result
            = .ok o' ∧
        o'.converged = true ∧ o'.iterations = 1 ∧ o'.tree = o.tree := by
  have hrun : ((Engine.run ⟨sampleRegistry, sampleConfig 5⟩ false sampleTree).result.toOption.map
      fun o => (o.converged, o.iterations, (o.tree.get? ⟨[1]⟩).map (·.span.stop)))
      = some (true, 3, some 0) := by decide +kernel
  obtain ⟨o, hresult, hvalues⟩ := exists_ok_of_map_toOption hrun
  simp only [Prod.mk.injEq] at hvalues
  obtain ⟨hconverged, hiterations, hspan⟩ := hvalues
  obtain ⟨o', hresult', hconverged', hiterations', htree, -⟩ :=
    Engine.run_converged_again sampleRegistry (sampleConfig 5) _ rfl rfl
      neverCancels_sampleRegistry false sampleTree o hresult hconverged
  exact ⟨o, hresult, hconverged, hiterations, hspan, o', hresult', hconverged', hiterations', htree⟩

end TreeLint
