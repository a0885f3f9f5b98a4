import Mathlib
import TreeLint.Proofs.Lockstep
import TreeLint.Proofs.RunRecord

namespace TreeLint

/-!
# Cancellation is seen between passes

A callback can cancel the run it belongs to. The pass goes on all the same, and whether the
cancellation is ever noticed depends on whether there would have been a further pass.

* `Engine.uncancelling` has the same rules, but their cancellations are ignored. Its passes have the
  same results and invoke the same callbacks (`runPass_uncancelling`).
* `Engine.GoesOn` says after which passes a run makes a further one, and `Engine.CancelledIn` in
  which pass a run is first cancelled.
* `run_eq_restAt`: as long as nothing is cancelled, a run is as far as `Engine.progressAt` says.
  `restAt_of_goesOn` and `restAt_of_not_goesOn` are about the pass in which it is cancelled.
* `Engine.run_cancellation` is the result.
-/

/-! ### Ignoring cancellations -/

/-- The callback that asks for the same, but never cancels. -/
def Callback.uncancelling (callback : Callback) : Callback :=
  fun p c => { callback p c with cancels := false }

/-- The rule whose callbacks never cancel. -/
def Rule.uncancelling (r : Rule) : Rule :=
  { r with
    enter := r.enter.map Callback.uncancelling
    exit := r.exit.map Callback.uncancelling }

/-- The rules whose callbacks never cancel. -/
def Registry.uncancelling (registry : Registry) : Registry where
  rules := registry.rules.map Rule.uncancelling
  supports := registry.supports
  names_nodup := by
    rw [List.map_map]
    exact registry.names_nodup

/-- The engine in which cancellations by callbacks are ignored. -/
def Engine.uncancelling (e : Engine) : Engine := { e with registry := e.registry.uncancelling }

/-- The callbacks of a rule that does not cancel are those of the rule, with nothing but the
    cancellation taken out. -/
theorem Rule.callback?_uncancelling (r : Rule) (phase : Phase) :
    r.uncancelling.callback? phase = (r.callback? phase).map Callback.uncancelling := by
  cases phase with
  | enter => rfl
  | exit => rfl

/-- What is taken out does not come back. -/
theorem Registry.neverCancels_uncancelling (registry : Registry) :
    registry.uncancelling.NeverCancels := by
  intro r hr phase callback hcallback p c
  obtain ⟨r', -, rfl⟩ := List.mem_map.mp hr
  rw [Rule.callback?_uncancelling] at hcallback
  obtain ⟨callback', -, rfl⟩ := Option.map_eq_some_iff.mp hcallback
  rfl

/-- The states agree, but for whether the run is cancelled. -/
structure WalkState.SameSoFar (s t : WalkState) : Prop where
  collector : s.collector = t.collector
  edits : s.edits = t.edits
  visits : s.visits = t.visits

namespace WalkState.SameSoFar

variable {s t : WalkState}

/-- Directives open and close scopes alike. -/
theorem scopeClosed : ScopeClosed SameSoFar where
  under h scope := by
    cases scope with
    | none => exact h
    | some suppression => exact ⟨congrArg (·.suppress suppression) h.collector, h.edits, h.visits⟩
  leave h scope := by
    cases scope with
    | none => exact h
    | some suppression => exact ⟨congrArg Collector.lift h.collector, h.edits, h.visits⟩

/-- A rule answers alike whether or not its callbacks may cancel. -/
theorem runRule (h : s.SameSoFar t) (r : Rule) (phase : Phase) (p : Path) :
    AnswersAlike SameSoFar (runRule r phase p s) (runRule r.uncancelling phase p t) := by
  have huncancelling := r.callback?_uncancelling phase
  cases hcallback : r.callback? phase with
  | none =>
    rw [hcallback] at huncancelling
    rw [runRule_of_none hcallback, runRule_of_none huncancelling]
    exact ⟨rfl, h⟩
  | some callback =>
    rw [hcallback] at huncancelling
    refine answersAlike_runRule SameSoFar.edits hcallback huncancelling rfl ?_ ?_ (fun h => ?_) h
    · rw [h.collector]
      rfl
    · rw [h.collector]
      rfl
    · obtain ⟨c, q, cancelled, visits⟩ := s
      obtain ⟨c', q', cancelled', visits'⟩ := t
      obtain ⟨rfl, rfl, rfl⟩ : c = c' ∧ q = q' ∧ visits = visits' :=
        ⟨h.collector, h.edits, h.visits⟩
      exact ⟨rfl, rfl, rfl⟩

end WalkState.SameSoFar

/-- Walks stay side by side whether or not callbacks may cancel. -/
theorem uncancellingLock (registry : Registry) :
    Lockstep registry registry.uncancelling WalkState.SameSoFar where
  closed := WalkState.SameSoFar.scopeClosed
  supports _ := rfl
  rules h phase kind p := by
    have hlookup : registry.uncancelling.lookup kind
        = (registry.lookup kind).map Rule.uncancelling := by
      rw [Registry.lookup_eq_filter, Registry.lookup_eq_filter]
      exact List.filter_map ..
    rw [hlookup]
    exact answersAlike_runRules_map (fun r _ p _ _ h' => h'.runRule r phase p) p h

namespace Engine

variable (e : Engine) (tree : Node)

/-- **A pass runs to its end.** Its result and the callbacks that it invokes do not depend on
    whether the run is cancelled meanwhile. -/
theorem runPass_uncancelling (cancelled : Bool) :
    (e.uncancelling.runPass cancelled tree).result = (e.runPass cancelled tree).result ∧
      (e.uncancelling.runPass cancelled tree).visits = (e.runPass cancelled tree).visits := by
  rw [runPass_eq_ofWalk, runPass_eq_ofWalk]
  have hstart : (WalkState.start e.collector).SameSoFar (.start e.collector) := ⟨rfl, rfl, rfl⟩
  obtain ⟨hresult, hstates⟩ :=
    ((uncancellingLock e.registry).coupled_traverse e.config.maxDepth tree hstart).eq
  constructor
  · show Except.map _ (traverse e.registry.uncancelling e.config.maxDepth tree e.collector).1
      = Except.map _ (traverse e.registry e.config.maxDepth tree e.collector).1
    rw [hresult, hstates.collector, hstates.edits]
    rfl
  · exact hstates.visits.symm

/-- A pass over a tree is the same without cancellation. -/
@[simp] theorem passOver_uncancelling : e.uncancelling.passOver tree = e.passOver tree := by
  unfold passOver
  rw [(e.runPass_uncancelling tree false).1]

/-- The passes leave the same trees without cancellation. -/
@[simp] theorem treeAt_uncancelling (i : Nat) :
    e.uncancelling.treeAt tree i = e.treeAt tree i := by
  induction i with
  | zero => rfl
  | succ i ih =>
    rw [treeAt, treeAt, ih]
    unfold applied
    rw [passOver_uncancelling]

/-! ### The passes of a run -/

/-- After the pass that comes after `i` others, a run makes a further one unless it is cancelled:
    fixes are made, the limit allows it, and the pass succeeds and leaves something to do. -/
def GoesOn (i : Nat) : Prop :=
  e.config.applyFixes = true ∧ i + 1 < e.config.fixIterationCap ∧
    ∃ pass, (e.runPass false (e.treeAt tree i)).result = .ok pass ∧
      ¬ pass.Settles (e.treeAt tree i)

/-- The callbacks that the first passes invoke. -/
def visitsUpTo : Nat → Array Visit
  | 0 => #[]
  | i + 1 => visitsUpTo i ++ (e.runPass false (e.treeAt tree i)).visits

/-- How far a run has come with a verdict. -/
def Verdict.progress : Verdict → Progress
  | .settled p => p
  | .changed p => p

/-- How far a run has come after the first passes. -/
def progressAt : Nat → Progress
  | 0 => .start tree
  | i + 1 => (absorb (progressAt i) (e.passOver (e.treeAt tree i))).progress

/-- Apart from cancellation, a run goes on after the same passes. -/
@[simp] theorem goesOn_uncancelling (i : Nat) :
    e.uncancelling.GoesOn tree i ↔ e.GoesOn tree i := by
  unfold GoesOn
  rw [treeAt_uncancelling, (e.runPass_uncancelling _ false).1]
  rfl

/-- The passes invoke the same callbacks without cancellation. -/
@[simp] theorem visitsUpTo_uncancelling (i : Nat) :
    e.uncancelling.visitsUpTo tree i = e.visitsUpTo tree i := by
  induction i with
  | zero => rfl
  | succ i ih =>
    rw [visitsUpTo, visitsUpTo, ih, treeAt_uncancelling, (e.runPass_uncancelling _ false).2]

/-- After as many passes a run has come as far without cancellation. -/
@[simp] theorem progressAt_uncancelling (i : Nat) :
    e.uncancelling.progressAt tree i = e.progressAt tree i := by
  induction i with
  | zero => rfl
  | succ i ih =>
    rw [progressAt, progressAt, ih, treeAt_uncancelling, passOver_uncancelling]

variable {e tree}

/-- A pass after which the run goes on has changed the tree. -/
theorem GoesOn.absorb {i : Nat} (h : e.GoesOn tree i) {p : Progress}
    (hp : p.tree = e.treeAt tree i) :
    (e.runPass false p.tree).result = .ok (e.passOver p.tree) ∧
      ∃ p', absorb p (e.passOver p.tree) = .changed p' ∧ p'.tree = e.treeAt tree (i + 1) ∧
        p'.iterations = p.iterations + 1 := by
  obtain ⟨-, -, pass, hpass, hgo⟩ := h
  rw [← hp] at hpass hgo
  rw [passOver_of_ok hpass]
  refine ⟨hpass, ?_⟩
  rcases absorb_cases p pass with ⟨hstop, -⟩ | ⟨-, p', habsorb, htree, hiterations, -⟩
  · exact absurd hstop hgo
  · refine ⟨p', habsorb, ?_, hiterations⟩
    rw [htree, treeAt, applied, ← hp, passOver_of_ok hpass]

/-- As long as the run goes on, each pass is made over the tree that the passes before it left. -/
theorem progressAt_of_goesOn {i : Nat} (h : ∀ j < i, e.GoesOn tree j) :
    (e.progressAt tree i).tree = e.treeAt tree i ∧ (e.progressAt tree i).iterations = i := by
  induction i with
  | zero => exact ⟨rfl, rfl⟩
  | succ i ih =>
    obtain ⟨htree, hiterations⟩ := ih fun j hj => h j (Nat.lt_succ_of_lt hj)
    obtain ⟨-, p', habsorb, htree', hiterations'⟩ := (h i (Nat.lt_succ_self i)).absorb htree
    rw [progressAt, ← htree, habsorb]
    exact ⟨htree', by rw [← hiterations]; exact hiterations'⟩

/-! ### One round of the loop -/

section Round

variable {p p' : Progress} {pass : PassResult} {passes : Nat} {visits : Array Visit}

/-- A pass that fails ends the run with its error. -/
theorem fixFrom_of_error {err : Error} (h : (e.runPass false p.tree).result = .error err) :
    e.fixFrom (passes + 1) false visits p
      = ⟨.error err, (e.runPass false p.tree).cancelled,
          visits ++ (e.runPass false p.tree).visits⟩ := by
  rw [fixFrom, if_neg Bool.false_ne_true]
  simp only [h]

/-- A pass that leaves nothing to do ends the run. -/
theorem fixFrom_of_settled (h : (e.runPass false p.tree).result = .ok pass)
    (habsorb : absorb p pass = .settled p') :
    e.fixFrom (passes + 1) false visits p
      = ⟨.ok (p'.finish true e.config.fixIterationCap), (e.runPass false p.tree).cancelled,
          visits ++ (e.runPass false p.tree).visits⟩ := by
  rw [fixFrom, if_neg Bool.false_ne_true]
  simp only [h, habsorb]

/-- A pass that changes the tree hands it on to the next one. -/
theorem fixFrom_of_changed (h : (e.runPass false p.tree).result = .ok pass)
    (habsorb : absorb p pass = .changed p') :
    e.fixFrom (passes + 1) false visits p
      = e.fixFrom passes (e.runPass false p.tree).cancelled
          (visits ++ (e.runPass false p.tree).visits) p' := by
  rw [fixFrom, if_neg Bool.false_ne_true]
  simp only [h, habsorb]

end Round

/-- **The loop up to the pass after `i` others**, as long as nothing is cancelled. -/
theorem fixFrom_eq_fixFrom {i : Nat} (hgo : ∀ j < i, e.GoesOn tree j)
    (hnot : ∀ j < i, (e.runPass false (e.treeAt tree j)).cancelled = false) (passes : Nat) :
    e.fixFrom (i + passes) false #[] (.start tree)
      = e.fixFrom passes false (e.visitsUpTo tree i) (e.progressAt tree i) := by
  induction i generalizing passes with
  | zero =>
    rw [Nat.zero_add]
    rfl
  | succ i ih =>
    have hbefore := fun j (hj : j < i) => hgo j (Nat.lt_succ_of_lt hj)
    obtain ⟨htree, -⟩ := progressAt_of_goesOn hbefore
    obtain ⟨hpass, p', habsorb, -⟩ := (hgo i (Nat.lt_succ_self i)).absorb htree
    have hcancelled := hnot i (Nat.lt_succ_self i)
    rw [show i + 1 + passes = i + (passes + 1) by omega,
      ih hbefore (fun j hj => hnot j (Nat.lt_succ_of_lt hj)), fixFrom_of_changed hpass habsorb]
    rw [htree] at habsorb
    rw [progressAt, visitsUpTo, habsorb, htree, hcancelled]
    rfl

/-! ### The last pass -/

/-- The outcome of a fixing run that ends with a verdict. -/
def Verdict.finish (cap : Nat) : Verdict → Outcome
  | .settled p => p.finish true cap
  | .changed p => p.finish false cap

variable (e tree) in
/-- What is left of a run after the first passes. -/
def restAt (i : Nat) : Run Outcome :=
  if e.config.applyFixes then
    e.fixFrom (e.config.fixIterationCap - i) false (e.visitsUpTo tree i) (e.progressAt tree i)
  else e.describe false tree

variable (e tree) in
/-- The result of a run whose last pass is the one that comes after `i` others. -/
def resultAt (i : Nat) : Except Error Outcome :=
  (e.runPass false (e.treeAt tree i)).result.map fun pass =>
    if e.config.applyFixes then (absorb (e.progressAt tree i) pass).finish e.config.fixIterationCap
    else ⟨tree, pass.diagnostics, [], [], 1, true⟩

/-- What a run would give if it ended after a pass is the same without cancellation. -/
@[simp] theorem resultAt_uncancelling (i : Nat) :
    e.uncancelling.resultAt tree i = e.resultAt tree i := by
  unfold resultAt
  rw [treeAt_uncancelling, progressAt_uncancelling, (e.runPass_uncancelling _ false).1]
  rfl

/-- The limit allows the pass after `i` others, if there is one. -/
theorem lt_cap_of_goesOn (hpos : 0 < e.config.fixIterationCap) {i : Nat}
    (hgo : ∀ j < i, e.GoesOn tree j) : i < e.config.fixIterationCap := by
  cases i with
  | zero => exact hpos
  | succ i => exact (hgo i (Nat.lt_succ_self i)).2.1

/-- Without fixes there is one pass only. -/
theorem eq_zero_of_goesOn (hfix : ¬ e.config.applyFixes = true) {i : Nat}
    (hgo : ∀ j < i, e.GoesOn tree j) : i = 0 := by
  cases i with
  | zero => rfl
  | succ i => exact absurd (hgo i (Nat.lt_succ_self i)).1 hfix

/-- **A run is its first passes and the rest**, as long as none of them was the last and none was
    cancelled. -/
theorem run_eq_restAt (hpos : 0 < e.config.fixIterationCap) {i : Nat}
    (hgo : ∀ j < i, e.GoesOn tree j)
    (hnot : ∀ j < i, (e.runPass false (e.treeAt tree j)).cancelled = false) :
    e.run false tree = e.restAt tree i := by
  have hlt := lt_cap_of_goesOn hpos hgo
  unfold run restAt
  split
  · rw [← fixFrom_eq_fixFrom hgo hnot, Nat.add_sub_cancel' hlt.le]
  · rfl

/-- **A cancellation before a further pass is noticed there.** -/
theorem restAt_of_goesOn {i : Nat} (hgo : ∀ j < i, e.GoesOn tree j) (hnext : e.GoesOn tree i)
    (hcancelled : (e.runPass false (e.treeAt tree i)).cancelled = true) :
    (e.restAt tree i).result = .error (.cancelled (i + 2)) ∧
      (e.restAt tree i).visits = e.visitsUpTo tree (i + 1) := by
  obtain ⟨htree, hiterations⟩ := progressAt_of_goesOn hgo
  obtain ⟨hpass, p', habsorb, -, hiterations'⟩ := hnext.absorb htree
  -- The limit allows this pass and the next one, before which the cancellation is noticed.
  obtain ⟨passes, hpasses⟩ : ∃ passes, e.config.fixIterationCap - i = passes + 2 :=
    Nat.exists_eq_add_of_le' (by have := hnext.2.1; omega)
  unfold restAt
  rw [if_pos hnext.1, hpasses, fixFrom_of_changed hpass habsorb, htree, hcancelled, fixFrom,
    if_pos rfl, hiterations', hiterations]
  exact ⟨rfl, rfl⟩

/-- **After the last pass a cancellation is not noticed.** -/
theorem restAt_of_not_goesOn (hpos : 0 < e.config.fixIterationCap) {i : Nat}
    (hgo : ∀ j < i, e.GoesOn tree j) (hlast : ¬ e.GoesOn tree i) :
    (e.restAt tree i).result = e.resultAt tree i ∧
      (e.restAt tree i).visits = e.visitsUpTo tree (i + 1) := by
  obtain ⟨htree, -⟩ := progressAt_of_goesOn hgo
  unfold restAt resultAt
  -- Only with fixes on is there a loop.
  by_cases hfix : e.config.applyFixes = true
  · obtain ⟨passes, hpasses⟩ := Nat.exists_eq_succ_of_ne_zero
      (Nat.sub_ne_zero_of_lt (lt_cap_of_goesOn hpos hgo))
    simp only [if_pos hfix]
    rw [hpasses, visitsUpTo, ← htree]
    cases hpass : (e.runPass false (e.progressAt tree i).tree).result with
    | error err =>
      rw [fixFrom_of_error hpass]
      exact ⟨rfl, rfl⟩
    | ok pass =>
      rcases absorb_cases (e.progressAt tree i) pass with
        ⟨-, p', habsorb, -⟩ | ⟨hleft, p', habsorb, -⟩
      · rw [fixFrom_of_settled hpass habsorb]
        refine ⟨?_, rfl⟩
        show Except.ok _ = Except.ok ((absorb (e.progressAt tree i) pass).finish _)
        rw [habsorb]
        rfl
      · -- Something is left to do, so it was the limit that ended the run.
        obtain rfl : passes = 0 := by
          by_contra hpositive
          refine hlast ⟨hfix, by omega, pass, ?_, ?_⟩
          · rw [← htree]
            exact hpass
          · rw [← htree]
            exact hleft
        rw [fixFrom_of_changed hpass habsorb, fixFrom]
        refine ⟨?_, rfl⟩
        show Except.ok _ = Except.ok ((absorb (e.progressAt tree i) pass).finish _)
        rw [habsorb]
        rfl
  · obtain rfl := eq_zero_of_goesOn hfix hgo
    simp only [if_neg hfix]
    unfold describe
    exact ⟨rfl, (Array.empty_append ..).symm⟩

/-- The pass that is absorbed is counted. -/
theorem iterations_finish_absorb (p : Progress) (pass : PassResult) (cap : Nat) :
    ((absorb p pass).finish cap).iterations = p.iterations + 1 := by
  rcases absorb_cases p pass with
    ⟨-, p', habsorb, -, hiterations, -⟩ | ⟨-, p', habsorb, -, hiterations, -⟩
  · rw [habsorb]
    exact hiterations
  · rw [habsorb]
    exact hiterations

/-- The outcome of such a run tells how many passes there were. -/
theorem iterations_of_resultAt {i : Nat} (hgo : ∀ j < i, e.GoesOn tree j) {o : Outcome}
    (h : e.resultAt tree i = .ok o) : o.iterations = i + 1 := by
  obtain ⟨-, hiterations⟩ := progressAt_of_goesOn hgo
  unfold resultAt at h
  cases hpass : (e.runPass false (e.treeAt tree i)).result with
  | error err =>
    rw [hpass] at h
    cases h
  | ok pass =>
    rw [hpass] at h
    obtain rfl := Except.ok.inj h
    by_cases hfix : e.config.applyFixes = true
    · simp only [if_pos hfix, iterations_finish_absorb, hiterations]
    · obtain rfl := eq_zero_of_goesOn hfix hgo
      simp only [if_neg hfix]

/-! ### The run -/

variable (e tree) in
/-- The run over `tree` is first cancelled in the pass that comes after `i` others: there is such a
    pass, no callback cancels in the passes before it, and some callback cancels in it. -/
structure CancelledIn (i : Nat) : Prop where
  reached : ∀ j < i, e.uncancelling.GoesOn tree j
  before : ∀ j < i, (e.runPass false (e.uncancelling.treeAt tree j)).cancelled = false
  during : (e.runPass false (e.uncancelling.treeAt tree i)).cancelled = true

variable (e tree) in
/-- Every run has a last pass. -/
theorem exists_last_pass : ∃ i, (∀ j < i, e.GoesOn tree j) ∧ ¬ e.GoesOn tree i := by
  classical
  have hends : ∃ i, ¬ e.GoesOn tree i := by
    refine ⟨e.config.fixIterationCap, fun h => ?_⟩
    have := h.2.1
    omega
  exact ⟨Nat.find hends, fun j hj => not_not.mp (Nat.find_min hends hj), Nat.find_spec hends⟩

/-- A run that is never cancelled has no pass in which a callback cancels. -/
theorem not_cancelled_of_forall {i : Nat} (hgo : ∀ j < i, e.GoesOn tree j)
    (h : ∀ j, ¬ e.CancelledIn tree j) :
    ∀ j ≤ i, (e.runPass false (e.treeAt tree j)).cancelled = false := by
  intro j
  induction j using Nat.strong_induction_on with
  | _ j ih =>
    intro hj
    rw [Bool.eq_false_iff]
    intro hcancelled
    -- All passes before this one were made and not cancelled, so it is the first one.
    refine h j ⟨fun k hk => ?_, fun k hk => ?_, ?_⟩
    · rw [goesOn_uncancelling]
      exact hgo k (by omega)
    · rw [treeAt_uncancelling]
      exact ih k hk (by omega)
    · rw [treeAt_uncancelling]
      exact hcancelled

/-- A run that is cancelled before it begins makes no pass. -/
theorem run_of_cancelled (hpos : 0 < e.config.fixIterationCap) :
    (e.run true tree).result = .error (.cancelled 1) := by
  obtain ⟨passes, hpasses⟩ := Nat.exists_eq_succ_of_ne_zero hpos.ne'
  unfold run describe
  split
  · rw [hpasses, fixFrom, if_pos rfl]
    rfl
  · rw [if_pos rfl]

/-- The run in which cancellations are ignored ends with its last pass. -/
theorem run_uncancelling (hpos : 0 < e.config.fixIterationCap) {i : Nat}
    (hgo : ∀ j < i, e.GoesOn tree j) (hlast : ¬ e.GoesOn tree i) :
    (e.uncancelling.run false tree).result = e.resultAt tree i ∧
      (e.uncancelling.run false tree).visits = e.visitsUpTo tree (i + 1) := by
  have hgo' : ∀ j < i, e.uncancelling.GoesOn tree j :=
    fun j hj => (e.goesOn_uncancelling tree j).mpr (hgo j hj)
  have hrest := restAt_of_not_goesOn (e := e.uncancelling) hpos hgo'
    (mt (e.goesOn_uncancelling tree i).mp hlast)
  rw [resultAt_uncancelling, visitsUpTo_uncancelling] at hrest
  have hnot : ∀ j < i, (e.uncancelling.runPass false
      (e.uncancelling.treeAt tree j)).cancelled = false :=
    fun j _ => cancelled_runPass e.registry.neverCancels_uncancelling false _
  rw [run_eq_restAt (e := e.uncancelling) hpos hgo' hnot]
  exact hrest

/-- **Cancellation is seen between passes only.** For all rules, all valid settings and every tree:

    * a run that is cancelled before it begins fails before its first pass;
    * if a callback first cancels in the pass after `i` others, that pass runs to its end and no
      further one begins. The run then has the result that it has when cancellations are ignored, if
      that run makes no further pass; else it fails before the next pass;
    * if no callback cancels, the run has the result that it has when cancellations are ignored.

    The run that ignores cancellations makes passes as long as `GoesOn` says, and no others. -/
theorem run_cancellation (registry : Registry) (config : Config) (e : Engine)
    (he : Engine.new registry config = .ok e) (tree : Node) :
    (e.run true tree).result = .error (.cancelled 1) ∧
      (∀ i, e.CancelledIn tree i →
        (e.run false tree).visits = e.uncancelling.visitsUpTo tree (i + 1) ∧
          (¬ e.uncancelling.GoesOn tree i →
            (e.run false tree).result = (e.uncancelling.run false tree).result) ∧
          (e.uncancelling.GoesOn tree i →
            (e.run false tree).result = .error (.cancelled (i + 2)))) ∧
      ((∀ i, ¬ e.CancelledIn tree i) →
        (e.run false tree).result = (e.uncancelling.run false tree).result) ∧
      ∀ i, (∀ j < i, e.uncancelling.GoesOn tree j) → ¬ e.uncancelling.GoesOn tree i →
        (e.uncancelling.run false tree).visits = e.uncancelling.visitsUpTo tree (i + 1) ∧
          ∀ o, (e.uncancelling.run false tree).result = .ok o → o.iterations = i + 1 := by
  obtain ⟨rfl, hpos⟩ := eq_of_new he
  simp only [goesOn_uncancelling, visitsUpTo_uncancelling]
  refine ⟨run_of_cancelled hpos, fun i hcancelled => ?_, fun hnever => ?_, fun i hgo hlast => ?_⟩
  · obtain ⟨hgo, hnot, hduring⟩ := hcancelled
    simp only [goesOn_uncancelling, treeAt_uncancelling] at hgo hnot hduring
    rw [run_eq_restAt hpos hgo hnot]
    -- The pass in which the run is cancelled is finished; what counts is whether another would
    -- follow.
    by_cases hnext : Engine.GoesOn ⟨registry, config⟩ tree i
    · obtain ⟨hresult, hvisits⟩ := restAt_of_goesOn hgo hnext hduring
      exact ⟨hvisits, fun hlast => absurd hnext hlast, fun _ => hresult⟩
    · obtain ⟨hresult, hvisits⟩ := restAt_of_not_goesOn hpos hgo hnext
      exact ⟨hvisits, fun hlast => hresult.trans (run_uncancelling hpos hgo hlast).1.symm,
        fun h => absurd h hnext⟩
  · obtain ⟨i, hgo, hlast⟩ := exists_last_pass ⟨registry, config⟩ tree
    have hnot := not_cancelled_of_forall hgo hnever
    rw [run_eq_restAt hpos hgo fun j hj => hnot j hj.le, (run_uncancelling hpos hgo hlast).1]
    exact (restAt_of_not_goesOn hpos hgo hlast).1
  · obtain ⟨hresult, hvisits⟩ := run_uncancelling hpos hgo hlast
    exact ⟨hvisits, fun o ho => iterations_of_resultAt hgo (hresult.symm.trans ho)⟩

end Engine

/-- A run goes on if what decides about that is as it should be. -/
theorem Engine.goesOn_of_values {e : Engine} {tree : Node} {i : Nat}
    (hfix : e.config.applyFixes = true) (hcap : i + 1 < e.config.fixIterationCap)
    (h : ((e.runPass false (e.treeAt tree i)).result.toOption.map fun pass =>
      let applied := applyEdits (e.treeAt tree i) pass.edits
      (pass.edits.isEmpty, applied.changed, applied.tree == e.treeAt tree i))
      = some (false, true, false)) : e.GoesOn tree i := by
  obtain ⟨pass, hpass, hvalues⟩ := exists_ok_of_map_toOption h
  simp only [Prod.mk.injEq] at hvalues
  obtain ⟨hedits, hchanged, hsame⟩ := hvalues
  refine ⟨hfix, hcap, pass, hpass, ?_⟩
  rintro (hstop | hstop | hstop)
  · rw [hedits] at hstop
    cases hstop
  · rw [hchanged] at hstop
    cases hstop
  · rw [hsame] at hstop
    cases hstop

/-- Cancel the run as soon as there is an ordered list. -/
def stopAtOrderedLists : Rule where
  name := "stop-at-ordered-lists"
  category := ⟨"SAMPLE"⟩
  accepts k := k = .element
  enter := some fun p _ => { cancels := p.node.name? = some "ol" }
  exit := none

/-- Rules for the sample: the first one cancels the second pass, because the first pass turns the
    list into an ordered one. -/
def hastyRegistry : Registry where
  rules := stopAtOrderedLists :: repairRegistry.rules
  supports _ := true
  names_nodup := by decide

/-- The engine for the sample. -/
def hastyEngine (cap : Nat) : Engine := ⟨hastyRegistry, sampleConfig cap⟩

/-- The first pass over the sample leaves something to do, and the second one is cancelled. -/
theorem cancelledIn_hastyEngine (cap : Nat) (hcap : 1 < cap)
    (hgo : (((hastyEngine cap).runPass false sampleTree).result.toOption.map fun pass =>
      let applied := applyEdits sampleTree pass.edits
      (pass.edits.isEmpty, applied.changed, applied.tree == sampleTree))
      = some (false, true, false))
    (hfirst : ((hastyEngine cap).runPass false sampleTree).cancelled = false)
    (hsecond : ((hastyEngine cap).runPass false
      ((hastyEngine cap).treeAt sampleTree 1)).cancelled = true) :
    (hastyEngine cap).CancelledIn sampleTree 1 := by
  refine ⟨fun j hj => ?_, fun j hj => ?_, ?_⟩
  · obtain rfl : j = 0 := by omega
    rw [Engine.goesOn_uncancelling]
    exact Engine.goesOn_of_values rfl hcap hgo
  · obtain rfl : j = 0 := by omega
    exact hfirst
  · rw [Engine.treeAt_uncancelling]
    exact hsecond

/-- The sample takes three passes. Cancelled in the second one, it fails before the third; but with
    a limit of two passes it has the same outcome as if it had not been cancelled. -/
theorem run_cancellation_sample :
    (hastyEngine 5).CancelledIn sampleTree 1 ∧
      ((hastyEngine 5).run false sampleTree).result = .error (.cancelled 3) ∧
      (hastyEngine 2).CancelledIn sampleTree 1 ∧
      ∃ o, ((hastyEngine 2).run false sampleTree).result = .ok o ∧
        ((hastyEngine 2).uncancelling.run false sampleTree).result = .ok o ∧
        o.iterations = 2 ∧ o.converged = false := by
  have hlong := cancelledIn_hastyEngine 5 (by decide) (by decide +kernel)
    (by decide +kernel) (by decide +kernel)
  have hshort := cancelledIn_hastyEngine 2 (by decide) (by decide +kernel)
    (by decide +kernel) (by decide +kernel)
  have hnext : (hastyEngine 5).GoesOn sampleTree 1 :=
    Engine.goesOn_of_values rfl (by decide) (by decide +kernel)
  have hlast : ¬ (hastyEngine 2).GoesOn sampleTree 1 := fun h => absurd h.2.1 (by decide)
  have hresult := ((Engine.run_cancellation hastyRegistry (sampleConfig 5) _ rfl sampleTree).2.1 1
    hlong).2.2 ((Engine.goesOn_uncancelling _ _ _).mpr hnext)
  have hsame := ((Engine.run_cancellation hastyRegistry (sampleConfig 2) _ rfl sampleTree).2.1 1
    hshort).2.1 (mt (Engine.goesOn_uncancelling _ _ _).mp hlast)
  have hrun : (((hastyEngine 2).run false sampleTree).result.toOption.map
      fun o => (o.iterations, o.converged)) = some (2, false) := by decide +kernel
  obtain ⟨o, ho, hvalues⟩ := exists_ok_of_map_toOption hrun
  simp only [Prod.mk.injEq] at hvalues
  exact ⟨hlong, hresult, hshort, o, ho, hsame.symm.trans ho, hvalues.1, hvalues.2⟩

end TreeLint
