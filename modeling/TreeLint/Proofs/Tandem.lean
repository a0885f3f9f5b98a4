import Mathlib
import TreeLint.Proofs.FixLoop
import TreeLint.Proofs.Lockstep

namespace TreeLint

/-!
# Two runs side by side

Some facts compare two runs over different trees or with different rules. What the engine does
between passes does not tell the two apart, as long as their passes queue related edits and report
related diagnostics.

* `Engine.runWith` is a run with the passes left open (`Engine.run_eq_runWith`).
* `Run.Matched`: two runs fail with one error or succeed with related results. Passes match if their
  walks are coupled (`matched_ofWalk`).
* `FixLaw` is what is asked of the relations between trees and between edits, and `RecordLaw` what
  is asked of the relation between lists of diagnostics.
* `Engine.matched_absorb` is one round, `Engine.matched_fixWith` the induction over the loop, and
  `Engine.matched_runWith` the result for runs.
-/

/-! ### Runs with the passes left open -/

namespace Engine

/-- The fixing loop with the passes left open: `pass i` makes the one that comes after `i`
    others. -/
def fixWith (cap : Nat) (pass : Nat → Bool → Node → Run PassResult) :
    (passes : Nat) → (cancelled : Bool) → Array Visit → Progress → Run Outcome
  | 0, cancelled, visits, p => ⟨.ok (p.finish false cap), cancelled, visits⟩
  | passes + 1, cancelled, visits, p =>
    if cancelled then ⟨.error (.cancelled (p.iterations + 1)), cancelled, visits⟩
    else
      let run := pass p.iterations cancelled p.tree
      let visits := visits ++ run.visits
      match run.result with
      | .error err => ⟨.error err, run.cancelled, visits⟩
      | .ok result =>
        match absorb p result with
        | .settled p => ⟨.ok (p.finish true cap), run.cancelled, visits⟩
        | .changed p => fixWith cap pass passes run.cancelled visits p

/-- A run with the passes left open. -/
def runWith (e : Engine) (pass : Nat → Bool → Node → Run PassResult) (cancelled : Bool)
    (tree : Node) : Run Outcome :=
  if e.config.applyFixes then
    fixWith e.config.fixIterationCap pass e.config.fixIterationCap cancelled #[]
      (Progress.start tree)
  else if cancelled then ⟨.error (.cancelled 1), cancelled, #[]⟩
  else
    let run := pass 0 cancelled tree
    { run with result := run.result.map fun pass => ⟨tree, pass.diagnostics, [], [], 1, true⟩ }

/-- The loop of an engine is the loop over its own passes. -/
theorem fixFrom_eq_fixWith (e : Engine) (passes : Nat) (cancelled : Bool) (visits : Array Visit)
    (p : Progress) :
    e.fixFrom passes cancelled visits p
      = fixWith e.config.fixIterationCap (fun _ => e.runPass) passes cancelled visits p := by
  induction passes generalizing cancelled visits p with
  | zero => rfl
  | succ passes ih =>
    rw [fixFrom, fixWith]
    refine ite_congr rfl (fun _ => rfl) fun _ => ?_
    simp only
    cases (e.runPass cancelled p.tree).result with
    | error err => rfl
    | ok pass =>
      simp only
      cases absorb p pass with
      | settled p' => rfl
      | changed p' => exact ih _ _ p'

/-- So is its run. -/
theorem run_eq_runWith (e : Engine) (cancelled : Bool) (tree : Node) :
    e.run cancelled tree = e.runWith (fun _ => e.runPass) cancelled tree := by
  unfold run runWith describe
  rw [fixFrom_eq_fixWith]

end Engine

/-! ### What is related -/

/-- Two runs that end alike: with one error, or with results that `V` relates. Both are cancelled or
    neither is. -/
inductive Run.Matched {α β : Type} (V : α → β → Prop) : Run α → Run β → Prop where
  | failed (err : Error) (cancelled : Bool) (visits visits' : Array Visit) :
      Matched V ⟨.error err, cancelled, visits⟩ ⟨.error err, cancelled, visits'⟩
  | ended {a : α} {b : β} (hV : V a b) (cancelled : Bool) (visits visits' : Array Visit) :
      Matched V ⟨.ok a, cancelled, visits⟩ ⟨.ok b, cancelled, visits'⟩

/-- Runs that are matched more closely are matched. -/
theorem Run.Matched.mono {α β : Type} {V W : α → β → Prop} {first : Run α} {second : Run β}
    (h : first.Matched V second) (hVW : ∀ a b, V a b → W a b) : first.Matched W second := by
  cases h with
  | failed err cancelled visits visits' => exact .failed err cancelled visits visits'
  | ended hV cancelled visits visits' => exact .ended (hVW _ _ hV) cancelled visits visits'

/-- If the first of two runs that match succeeds, so does the second one. -/
theorem Run.Matched.exists_ok {α β : Type} {V : α → β → Prop} {first : Run α} {second : Run β}
    (h : first.Matched V second) {a : α} (ha : first.result = .ok a) :
    ∃ b, second.result = .ok b ∧ V a b := by
  cases h with
  | failed err cancelled visits visits' => cases ha
  | ended hV cancelled visits visits' =>
    cases ha
    exact ⟨_, rfl, hV⟩

section Relations

variable (T : Node → Node → Prop) (E : EditQueue → EditQueue → Prop)
  (D : List Diagnostic → List Diagnostic → Prop)

/-- Two passes with related edits and diagnostics. -/
structure PassResult.Matched (pass pass' : PassResult) : Prop where
  edits : E pass.edits pass'.edits
  diagnostics : D pass.diagnostics pass'.diagnostics

/-- Two runs that have come equally far, with related trees and diagnostics. -/
structure Progress.Matched (p p' : Progress) : Prop where
  tree : T p.tree p'.tree
  iterations : p.iterations = p'.iterations
  history : D p.history p'.history
  last : D p.last p'.last
  conflicts : p.conflicts = p'.conflicts
  warnings : p.warnings = p'.warnings

/-- Two outcomes with related trees and diagnostics, and else the same. -/
structure Outcome.Matched (o o' : Outcome) : Prop where
  tree : T o.tree o'.tree
  diagnostics : D o.diagnostics o'.diagnostics
  conflicts : o.conflicts = o'.conflicts
  warnings : o.warnings = o'.warnings
  iterations : o.iterations = o'.iterations
  converged : o.converged = o'.converged

/-- Edits that came to the same at the same places, and left related trees. -/
structure Applied.Matched (a a' : Applied) : Prop where
  tree : T a.tree a'.tree
  applied : a.applied = a'.applied
  stale : a.stale = a'.stale
  conflicts : a.conflicts = a'.conflicts
  absorbed : a.absorbed = a'.absorbed

/-- Two verdicts of one kind. -/
inductive Engine.Verdict.Matched : Engine.Verdict → Engine.Verdict → Prop where
  | settled {p p' : Progress} (h : p.Matched T D p') : Matched (.settled p) (.settled p')
  | changed {p p' : Progress} (h : p.Matched T D p') : Matched (.changed p) (.changed p')

/-- What is asked of related trees and edits: the engine cannot tell them apart. -/
structure FixLaw : Prop where
  isEmpty : ∀ {q q'}, E q q' → q.isEmpty = q'.isEmpty
  same : ∀ {a a' b b'}, T a a' → T b b' → (a == b) = (a' == b')
  edits : ∀ {tree tree' q q'}, T tree tree' → E q q' →
    (applyEdits tree q).Matched T (applyEdits tree' q')

/-- What is asked of related lists of diagnostics: they stay related when they are put together,
    when those with fixes that were made are picked out, and when it is noted what became of the
    fixes. -/
structure RecordLaw : Prop where
  nil : D [] []
  append : ∀ {as as' bs bs'}, D as as' → D bs bs' → D (as ++ bs) (as' ++ bs')
  applied : ∀ {ds ds'}, D ds ds' →
    D (ds.filter (·.status = .applied)) (ds'.filter (·.status = .applied))
  judged : ∀ {ds ds'}, D ds ds' → ∀ a : Applied,
    D (ds.map fun d => { d with status := a.statusOf d })
      (ds'.map fun d => { d with status := a.statusOf d })

end Relations

/-- The law for runs over one tree that queue the same edits. -/
theorem FixLaw.eq : FixLaw Eq Eq where
  isEmpty := by
    rintro q q' rfl
    rfl
  same := by
    rintro a a' b b' rfl rfl
    rfl
  edits := by
    rintro tree tree' q q' rfl rfl
    exact ⟨rfl, rfl, rfl, rfl, rfl⟩

/-- The law for diagnostics that agree once `f` is applied to them, if `f` keeps what is known of
    the fixes. -/
theorem RecordLaw.ofMap {f : Diagnostic → Diagnostic} (hstatus : ∀ d, (f d).status = d.status)
    (hjudged : ∀ (a : Applied) d,
      f { d with status := a.statusOf d } = { f d with status := a.statusOf (f d) }) :
    RecordLaw fun ds ds' => ds.map f = ds'.map f where
  nil := rfl
  append := by
    intro as as' bs bs' has hbs
    rw [List.map_append, List.map_append, has, hbs]
  applied := by
    intro ds ds' h
    have hfilter : ∀ ds : List Diagnostic, (ds.filter (·.status = .applied)).map f
        = (ds.map f).filter (·.status = .applied) := by
      intro ds
      rw [List.filter_map]
      simp only [Function.comp_def, hstatus]
    rw [hfilter, hfilter, h]
  judged := by
    intro ds ds' h a
    have hmap : ∀ ds : List Diagnostic, (ds.map fun d => { d with status := a.statusOf d }).map f
        = (ds.map f).map fun d => { d with status := a.statusOf d } := by
      intro ds
      rw [List.map_map, List.map_map]
      exact List.map_congr_left fun d _ => hjudged a d
    rw [hmap, hmap, h]

/-! ### The loop -/

section Loop

variable {T : Node → Node → Prop} {E : EditQueue → EditQueue → Prop}
  {D : List Diagnostic → List Diagnostic → Prop}

/-- **The passes.** They match if their walks end in states with related edits and diagnostics. -/
theorem matched_ofWalk {S : WalkState → WalkState → Prop} {V : Option Node → Option Node → Prop}
    (hedits : ∀ {s t}, S s t → E s.edits t.edits)
    (hdiagnostics : ∀ {s t}, S s t → D s.collector.diagnostics t.collector.diagnostics)
    (hcancelled : ∀ {s t}, S s t → s.cancelled = t.cancelled) (cancelled : Bool)
    {first second : Walked (Option Node)} (h : Coupled S V first second) :
    (Run.ofWalk cancelled first).Matched (PassResult.Matched E D) (.ofWalk cancelled second) := by
  unfold Run.ofWalk
  cases h with
  | failed err hS =>
    simp only [hcancelled hS]
    exact .failed err _ _ _
  | ended hV hS =>
    simp only [hcancelled hS]
    exact .ended ⟨hedits hS, hdiagnostics hS⟩ _ _ _

/-- What becomes of a fix is read off the places of the edits and not off the tree. -/
theorem Applied.Matched.statusOf {a a' : Applied} (h : a.Matched T a') :
    a.statusOf = a'.statusOf := by
  funext d
  unfold Applied.statusOf Applied.governing
  rw [h.applied, h.stale, h.conflicts, h.absorbed]

namespace Progress.Matched

variable {p p' : Progress}

/-- Runs that start from matched trees are matched. -/
theorem start {tree tree' : Node} (hrecord : RecordLaw D) (h : T tree tree') :
    (Progress.start tree).Matched T D (Progress.start tree') :=
  ⟨h, rfl, hrecord.nil, hrecord.nil, rfl, rfl⟩

/-- What is carried over from earlier passes is matched. -/
theorem carried (hrecord : RecordLaw D) (h : p.Matched T D p') : D p.carried p'.carried :=
  hrecord.append h.history (hrecord.applied h.last)

/-- Matched runs finish with matched outcomes. -/
theorem finish (hrecord : RecordLaw D) (h : p.Matched T D p') (converged : Bool) (cap : Nat) :
    (p.finish converged cap).Matched T D (p'.finish converged cap) where
  tree := h.tree
  diagnostics := hrecord.append h.history h.last
  conflicts := h.conflicts
  warnings := by
    unfold Progress.finish
    rw [h.warnings]
  iterations := h.iterations
  converged := rfl

end Progress.Matched

namespace Engine

/-- **One round.** The engine makes the same of related passes. -/
theorem matched_absorb (hfix : FixLaw T E) (hrecord : RecordLaw D) {p p' : Progress}
    (hp : p.Matched T D p') {pass pass' : PassResult} (hpass : pass.Matched E D pass') :
    (absorb p pass).Matched T D (absorb p' pass') := by
  have hcarried := hp.carried hrecord
  have hiterations : p.iterations + 1 = p'.iterations + 1 := congrArg (· + 1) hp.iterations
  have happlied := hfix.edits hp.tree hpass.edits
  -- What the engine decides by is the same in both runs.
  have hchanged : (applyEdits p.tree pass.edits).changed
      = (applyEdits p'.tree pass'.edits).changed := by
    unfold Applied.changed
    rw [happlied.applied]
  have hsame := hfix.same happlied.tree hp.tree
  have hlast := hrecord.judged hpass.diagnostics (applyEdits p'.tree pass'.edits)
  have hconflicts : p.conflicts ++ (applyEdits p.tree pass.edits).conflicts
      = p'.conflicts ++ (applyEdits p'.tree pass'.edits).conflicts := by
    rw [hp.conflicts, happlied.conflicts]
  have hwarnings : p.warnings ++ (applyEdits p.tree pass.edits).conflicts.map .conflict
      = p'.warnings ++ (applyEdits p'.tree pass'.edits).conflicts.map .conflict := by
    rw [hp.warnings, happlied.conflicts]
  unfold absorb
  simp only [hfix.isEmpty hpass.edits, hchanged, hsame, happlied.statusOf]
  split
  · exact .settled ⟨hp.tree, hiterations, hcarried, hpass.diagnostics, hp.conflicts, hp.warnings⟩
  · split
    · exact .settled ⟨hp.tree, hiterations, hcarried, hlast, hconflicts, hwarnings⟩
    · exact .changed ⟨happlied.tree, hiterations, hcarried, hlast, hconflicts, hwarnings⟩

variable {pass pass' : Nat → Bool → Node → Run PassResult}

/-- **The loop.** If the passes over related trees match, so do the loops. -/
theorem matched_fixWith (hfix : FixLaw T E) (hrecord : RecordLaw D)
    (hpass : ∀ i cancelled tree tree', T tree tree' →
      (pass i cancelled tree).Matched (PassResult.Matched E D) (pass' i cancelled tree'))
    (cap passes : Nat) (cancelled : Bool) (visits visits' : Array Visit) {p p' : Progress}
    (hp : p.Matched T D p') :
    (fixWith cap pass passes cancelled visits p).Matched (Outcome.Matched T D)
      (fixWith cap pass' passes cancelled visits' p') := by
  induction passes generalizing cancelled visits visits' p p' with
  | zero => exact .ended (hp.finish hrecord false cap) cancelled visits visits'
  | succ passes ih =>
    rw [fixWith, fixWith, hp.iterations]
    cases cancelled with
    | true => exact .failed _ true visits visits'
    | false =>
      rw [if_neg Bool.false_ne_true, if_neg Bool.false_ne_true]
      have hmatched := hpass p'.iterations false p.tree p'.tree hp.tree
      generalize pass p'.iterations false p.tree = run at hmatched ⊢
      generalize pass' p'.iterations false p'.tree = run' at hmatched ⊢
      cases hmatched with
      | failed err cancelled visits₁ visits₂ => exact .failed err cancelled _ _
      | @ended a b hab cancelled visits₁ visits₂ =>
        -- The verdicts are of one kind, so that the loops end or go on together.
        have hverdict := matched_absorb hfix hrecord hp hab
        simp only
        generalize absorb p a = verdict at hverdict ⊢
        generalize absorb p' b = verdict' at hverdict ⊢
        cases hverdict with
        | settled hp' => exact .ended (hp'.finish hrecord true cap) cancelled _ _
        | changed hp' => exact ih cancelled _ _ hp'

/-- **The run.** If the passes over related trees match, so do the runs. -/
theorem matched_runWith (hfix : FixLaw T E) (hrecord : RecordLaw D) {e e' : Engine}
    (hconfig : e.config = e'.config)
    (hpass : ∀ i cancelled tree tree', T tree tree' →
      (pass i cancelled tree).Matched (PassResult.Matched E D) (pass' i cancelled tree'))
    (cancelled : Bool) {tree tree' : Node} (htree : T tree tree') :
    (e.runWith pass cancelled tree).Matched (Outcome.Matched T D)
      (e'.runWith pass' cancelled tree') := by
  unfold runWith
  rw [hconfig]
  split
  · exact matched_fixWith hfix hrecord hpass _ _ cancelled _ _ (.start hrecord htree)
  · split
    · exact .failed _ cancelled _ _
    · have hmatched := hpass 0 cancelled tree tree' htree
      generalize pass 0 cancelled tree = run at hmatched ⊢
      generalize pass' 0 cancelled tree' = run' at hmatched ⊢
      cases hmatched with
      | failed err cancelled visits₁ visits₂ => exact .failed err cancelled _ _
      | ended hab cancelled visits₁ visits₂ =>
        exact .ended ⟨htree, hab.diagnostics, rfl, rfl, rfl, rfl⟩ cancelled _ _

end Engine

end Loop

end TreeLint
