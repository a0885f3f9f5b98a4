import Mathlib
import TreeLint.Proofs.Collector
import TreeLint.Proofs.Remark
import TreeLint.Proofs.Tandem

namespace TreeLint

/-!
# Suppression only hides

A suppression sets a flag on diagnostics. As long as no callback reads these flags
(`Registry.IgnoresFlags`), nothing else can depend on what is suppressed.

* `Collector.unflagged_addAll`: forgetting the flags commutes with collecting.
* `WalkState.Alike` relates states that agree but for the flags, and `flagsLock` is the law by which
  two walks that begin in such states stay side by side.
* `Engine.runUnder` is a run whose passes begin under given suppressions. The engine does not look
  at the flags when it takes a pass into account (`recordLaw_unflagged`), so that
  `Engine.matched_runUnder` is a case of two runs side by side.
* `suppression_only_hides` is the result, for walks and for runs.
-/

/-- No callback of the registry looks at what is suppressed. -/
def Registry.IgnoresFlags (registry : Registry) : Prop :=
  ∀ r ∈ registry.rules, ∀ phase callback, r.callback? phase = some callback →
    ∀ p c c', c.unflagged = c'.unflagged → callback p c = callback p c'

/-! ### Walks -/

namespace Collector

/-- A collector without suppressions records what is left without the flag. -/
theorem unflagged_diagnose (c : Collector) (f : Finding) :
    (c.diagnose f).unflagged = c.unflagged.diagnose f := rfl

/-- The same for all findings of a reaction. -/
theorem map_unflagged_diagnosed (c : Collector) (fs : List Finding) :
    (c.diagnosed fs).map Diagnostic.unflagged = c.unflagged.diagnosed fs := by
  unfold diagnosed
  rw [List.map_map]
  exact List.map_congr_left fun f _ => c.unflagged_diagnose f

/-- Apart from the flags, findings are collected as if nothing were suppressed. -/
theorem unflagged_addAll (c : Collector) (fs : List Finding) :
    (c.addAll fs).unflagged = c.unflagged.addAll fs := by
  rw [addAll_eq, addAll_eq, ← map_unflagged_diagnosed]
  simp only [unflagged, List.map_append]

end Collector

/-- The states agree, but for what is suppressed. -/
structure WalkState.Alike (s t : WalkState) : Prop where
  collector : s.collector.unflagged = t.collector.unflagged
  edits : s.edits = t.edits
  cancelled : s.cancelled = t.cancelled

namespace WalkState.Alike

variable {s t : WalkState}

/-- The same categories are enabled. -/
theorem isEnabled (h : Alike s t) (category : Category) :
    s.collector.isEnabled category = t.collector.isEnabled category := by
  show s.collector.unflagged.isEnabled category = t.collector.unflagged.isEnabled category
  rw [h.collector]

/-- Directives open and close scopes in both walks, although they say different things. -/
theorem scopeClosed : ScopeClosed Alike where
  under h scope := by
    cases scope with
    | none => exact h
    | some suppression => exact ⟨h.collector, h.edits, h.cancelled⟩
  leave h scope := by
    cases scope with
    | none => exact h
    | some suppression => exact ⟨h.collector, h.edits, h.cancelled⟩

/-- The same reaction leads from states that agree to states that agree. -/
theorem react (h : Alike s t) (r : Rule) (phase : Phase) (p : Path) (reaction : Reaction) :
    Alike (s.react r phase p reaction) (t.react r phase p reaction) where
  collector := by
    show (s.collector.addAll reaction.findings).unflagged
      = (t.collector.addAll reaction.findings).unflagged
    rw [Collector.unflagged_addAll, Collector.unflagged_addAll, h.collector]
  edits := congrArg ((reaction.requests p).foldl (request (p.here :: p.above))) h.edits
  cancelled := congrArg (· || reaction.cancels) h.cancelled

/-- A rule cannot tell the states apart, so that it answers alike in both. -/
theorem runRule {registry : Registry} (hregistry : registry.IgnoresFlags) {r : Rule}
    (hr : r ∈ registry.rules) (phase : Phase) (p : Path) (h : Alike s t) :
    AnswersAlike Alike (runRule r phase p s) (runRule r phase p t) := by
  cases hcallback : r.callback? phase with
  | none =>
    rw [runRule_of_none hcallback, runRule_of_none hcallback]
    exact ⟨rfl, h⟩
  | some callback =>
    have hreaction : callback p s.collector = callback p t.collector :=
      hregistry r hr phase callback hcallback p _ _ h.collector
    refine answersAlike_runRule Alike.edits hcallback hcallback rfl (h.isEnabled r.category) ?_
      (fun h => ?_) h
    · rw [hreaction]
    · rw [hreaction]
      exact h.react r phase p (callback p t.collector)

end WalkState.Alike

/-- Two walks with the same rules stay side by side whatever is suppressed in them. -/
theorem flagsLock {registry : Registry} (h : registry.IgnoresFlags) :
    Lockstep registry registry WalkState.Alike where
  closed := WalkState.Alike.scopeClosed
  supports _ := rfl
  rules hstates phase _ p :=
    answersAlike_runRules
      (fun _ hr p _ _ h' => h'.runRule h (Registry.mem_lookup.mp hr).1 phase p) p hstates

/-- The result of a walk does not depend on the suppressions that it begins under, and nor does the
    state in which it ends, but for the flags. -/
theorem coupled_traverse_alike {registry : Registry} (h : registry.IgnoresFlags) (maxDepth : Nat)
    (tree : Node) {c c' : Collector} (hc : c.unflagged = c'.unflagged) :
    Coupled WalkState.Alike Eq (traverse registry maxDepth tree c)
      (traverse registry maxDepth tree c') :=
  (flagsLock h).coupled_traverse maxDepth tree ⟨hc, rfl, rfl⟩

/-! ### Runs -/

/-- The outcome of a run as if nothing had been suppressed. -/
def Outcome.unflagged (o : Outcome) : Outcome :=
  { o with diagnostics := o.diagnostics.map Diagnostic.unflagged }

/-- Two runs agree once `f` is applied to their results. -/
structure Run.AgreeUpTo {α : Type} (f : α → α) (first second : Run α) : Prop where
  result : first.result.map f = second.result.map f
  cancelled : first.cancelled = second.cancelled

/-- Runs whose results `f` cannot tell apart agree up to `f`. -/
theorem Run.Matched.agreeUpTo {α : Type} {f : α → α} {first second : Run α}
    (h : first.Matched (fun a b => f a = f b) second) : first.AgreeUpTo f second := by
  cases h with
  | failed err cancelled visits visits' => exact ⟨rfl, rfl⟩
  | ended hV cancelled visits visits' => exact ⟨congrArg Except.ok hV, rfl⟩

/-- The diagnostics are the same, but for what is suppressed. -/
def SameUnflagged (ds ds' : List Diagnostic) : Prop :=
  ds.map Diagnostic.unflagged = ds'.map Diagnostic.unflagged

/-- **The engine does not look at the flags** when it takes a pass into account: what became of a
    fix is read off its location and the edits. -/
theorem recordLaw_unflagged : RecordLaw SameUnflagged :=
  RecordLaw.ofMap (fun _ => rfl) fun _ _ => rfl

/-- What has been collected is the same but for the flags. -/
theorem WalkState.Alike.diagnostics {s t : WalkState} (h : s.Alike t) :
    SameUnflagged s.collector.diagnostics t.collector.diagnostics :=
  congrArg Collector.diagnostics h.collector

/-- Outcomes that match but for the flags are the same without them. -/
theorem Outcome.Matched.unflagged_eq {o o' : Outcome} (h : o.Matched Eq SameUnflagged o') :
    o.unflagged = o'.unflagged := by
  obtain ⟨htree, hdiagnostics, hconflicts, hwarnings, hiterations, hconverged⟩ := h
  unfold SameUnflagged at hdiagnostics
  unfold Outcome.unflagged
  rw [htree, hdiagnostics, hconflicts, hwarnings, hiterations, hconverged]

namespace Engine

/-- One pass of all rules over a tree, under suppressions from the beginning. -/
def runPassUnder (e : Engine) (scope : List Suppression) (cancelled : Bool) (tree : Node) :
    Run PassResult :=
  .ofWalk cancelled
    (traverse e.registry e.config.maxDepth tree { e.collector with suppressions := scope })

/-- A run whose pass after `i` others is made under the suppressions `scopes i`. -/
def runUnder (e : Engine) (scopes : Nat → List Suppression) (cancelled : Bool) (tree : Node) :
    Run Outcome :=
  e.runWith (fun i => e.runPassUnder (scopes i)) cancelled tree

/-- What the edits of such a pass over `tree` come to; a pass that fails has no edits. -/
def appliedUnder (e : Engine) (scope : List Suppression) (tree : Node) : Applied :=
  applyEdits tree
    ((e.runPassUnder scope false tree).result.toOption.elim EditQueue.empty (·.edits))

/-- The tree after a number of such passes. -/
def treeUnder (e : Engine) (scopes : Nat → List Suppression) (tree : Node) : Nat → Node
  | 0 => tree
  | i + 1 => (e.appliedUnder (scopes i) (e.treeUnder scopes tree i)).tree

/-- What a pass is made under matters to the flags only. -/
theorem matched_runPassUnder {e : Engine} (h : e.registry.IgnoresFlags)
    (scope : List Suppression) (cancelled : Bool) (tree : Node) :
    (e.runPassUnder scope cancelled tree).Matched (PassResult.Matched Eq SameUnflagged)
      (e.runPass cancelled tree) := by
  rw [runPass_eq_ofWalk]
  exact matched_ofWalk WalkState.Alike.edits WalkState.Alike.diagnostics
    WalkState.Alike.cancelled cancelled (coupled_traverse_alike h e.config.maxDepth tree rfl)

/-- The same for the passes of a run taken together. -/
theorem matched_runUnder {e : Engine} (h : e.registry.IgnoresFlags)
    (scopes : Nat → List Suppression) (cancelled : Bool) (tree : Node) :
    (e.runUnder scopes cancelled tree).Matched (Outcome.Matched Eq SameUnflagged)
      (e.run cancelled tree) := by
  rw [run_eq_runWith]
  refine matched_runWith .eq recordLaw_unflagged rfl ?_ cancelled rfl
  rintro i cancelled tree _ rfl
  exact matched_runPassUnder h (scopes i) cancelled tree

/-- What the edits of a pass come to is the same under all suppressions. -/
theorem appliedUnder_eq {e : Engine} (h : e.registry.IgnoresFlags) (scope : List Suppression)
    (tree : Node) : e.appliedUnder scope tree = e.applied tree := by
  have hmatched := matched_runPassUnder h scope false tree
  unfold appliedUnder applied passOver
  generalize e.runPassUnder scope false tree = run at hmatched ⊢
  generalize e.runPass false tree = run' at hmatched ⊢
  cases hmatched with
  | failed err cancelled visits visits' => rfl
  | ended hpass cancelled visits visits' => exact congrArg (applyEdits tree) hpass.edits

/-- Hence the passes go through the same trees. -/
theorem treeUnder_eq {e : Engine} (h : e.registry.IgnoresFlags)
    (scopes : Nat → List Suppression) (tree : Node) (i : Nat) :
    e.treeUnder scopes tree i = e.treeAt tree i := by
  induction i with
  | zero => rfl
  | succ i ih => rw [treeUnder, treeAt, ih, appliedUnder_eq h]

end Engine

/-- **Suppression only hides.** Whatever the tree and the settings, with rules that do not look at
    what is suppressed:

    * two walks that begin under different suppressions fail alike or leave the same tree, queue the
      same edits, and report the same diagnostics but for the flags;
    * a run whose passes are made under any suppressions has the outcome of the run under none but
      for the flags: the tree, what became of each fix, the conflicts and the number of passes. Each
      of its passes applies the same edits. -/
theorem suppression_only_hides (registry : Registry) (h : registry.IgnoresFlags) (tree : Node) :
    (∀ (maxDepth : Nat) (c : Collector) (first second : List Suppression),
      let out := traverse registry maxDepth tree { c with suppressions := first }
      let out' := traverse registry maxDepth tree { c with suppressions := second }
      out.1 = out'.1 ∧ out.2.edits = out'.2.edits ∧
        out.2.collector.diagnostics.map Diagnostic.unflagged
          = out'.2.collector.diagnostics.map Diagnostic.unflagged) ∧
      ∀ (config : Config) (cancelled : Bool) (scopes : Nat → List Suppression),
        let e : Engine := ⟨registry, config⟩
        (e.runUnder scopes cancelled tree).AgreeUpTo Outcome.unflagged (e.run cancelled tree) ∧
          ∀ i, e.appliedUnder (scopes i) (e.treeUnder scopes tree i)
            = e.applied (e.treeAt tree i) := by
  refine ⟨fun maxDepth c first second => ?_, fun config cancelled scopes => ⟨?_, fun i => ?_⟩⟩
  · have hcoupled : Coupled WalkState.Alike Eq
        (traverse registry maxDepth tree { c with suppressions := first })
        (traverse registry maxDepth tree { c with suppressions := second }) :=
      coupled_traverse_alike h maxDepth tree rfl
    obtain ⟨hresult, hstates⟩ := hcoupled.eq
    exact ⟨hresult, hstates.edits, hstates.diagnostics⟩
  · have hmatched := Engine.matched_runUnder (e := ⟨registry, config⟩) h scopes cancelled tree
    exact (hmatched.mono fun _ _ => Outcome.Matched.unflagged_eq).agreeUpTo
  · rw [Engine.treeUnder_eq h, Engine.appliedUnder_eq h]

namespace Builtin

/-- The built-in rules ask no more than whether fixes are to be made. -/
theorem ignoresFlags_registry : registry.IgnoresFlags := by
  intro r hr phase callback hcallback p c c' hc
  obtain ⟨remark, callback', hcallback', hremark⟩ := exists_remarks hr hcallback
  obtain rfl : callback = callback' := Option.some.inj (hcallback.symm.trans hcallback')
  have happlies : c.applies r.category = c'.applies r.category := by
    show c.unflagged.applies r.category = c'.unflagged.applies r.category
    rw [hc]
  rw [hremark, hremark]
  exact Remark.reaction_congr happlies _

/-- Two elements that are not self-closing; a directive hides the first one. -/
def halfHiddenPage : Node :=
  .ofPayload .document
    [.ofPayload (.comment "weft-ignore") [], .ofPayload (.element "br" [] false) [],
      .ofPayload (.element "div" [] false) []]

/-- With everything suppressed in the first pass, the second element is fixed all the same. -/
theorem suppression_only_hides_halfHiddenPage :
    registry.IgnoresFlags ∧
      ∃ o o',
        (Engine.runUnder ⟨registry, { applyFixes := true }⟩
            (fun i => if i = 0 then [.all] else []) false halfHiddenPage).result = .ok o ∧
          (Engine.run ⟨registry, { applyFixes := true }⟩ false halfHiddenPage).result = .ok o' ∧
          o.diagnostics.map (fun d => (d.status, d.suppressed))
            = [(.applied, true), (.applied, true)] ∧
          o'.diagnostics.map (fun d => (d.status, d.suppressed))
            = [(.applied, true), (.applied, false)] ∧
          o.unflagged = o'.unflagged := by
  have hunder : ((Engine.runUnder ⟨registry, { applyFixes := true }⟩
      (fun i => if i = 0 then [.all] else []) false halfHiddenPage).result.toOption.map
        fun o => o.diagnostics.map fun d => (d.status, d.suppressed))
      = some [(.applied, true), (.applied, true)] := by decide +kernel
  have hrun : ((Engine.run ⟨registry, { applyFixes := true }⟩ false
      halfHiddenPage).result.toOption.map
        fun o => o.diagnostics.map fun d => (d.status, d.suppressed))
      = some [(.applied, true), (.applied, false)] := by decide +kernel
  obtain ⟨o, ho, hvalues⟩ := exists_ok_of_map_toOption hunder
  obtain ⟨o', ho', hvalues'⟩ := exists_ok_of_map_toOption hrun
  have hagree := ((suppression_only_hides registry ignoresFlags_registry halfHiddenPage).2
    { applyFixes := true } false fun i => if i = 0 then [.all] else []).1.result
  rw [ho, ho'] at hagree
  exact ⟨ignoresFlags_registry, o, o', ho, ho', hvalues, hvalues', Except.ok.inj hagree⟩

end Builtin

end TreeLint
