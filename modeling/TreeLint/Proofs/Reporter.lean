import Mathlib
import TreeLint.Proofs.Reaction
import TreeLint.Proofs.Registration
import TreeLint.Proofs.RunRecord
import TreeLint.Proofs.Tandem

namespace TreeLint

/-!
# Adding a rule that only reports

A rule that queues nothing can still show in what other rules do: they may look at what was
collected before them. If they do not (`Registry.IgnoresContents`), such a rule can be added to a
registry and nothing changes but that its diagnostics are reported as well.

* `Rule.OnlyReports`: the callbacks of the rule do no more than report under its category.
* `WalkState.Besides` relates the states of the two walks: they agree once the diagnostics of one
  category are left out. `besides_runRule` is about a rule that both registries have, and
  `besides_reporter` about the one that was added.
* `reporterLock` is the law by which the walks stay side by side, and `recordLaw_besides` the one
  for the loops. `Engine.run_register_reporter` is the result.
-/

/-- No callback of the registry looks at the diagnostics that were collected before. -/
def Registry.IgnoresContents (registry : Registry) : Prop :=
  ∀ r ∈ registry.rules, ∀ phase callback, r.callback? phase = some callback →
    ∀ p c diagnostics, callback p { c with diagnostics } = callback p c

/-- No callback of the registry reports under the category. -/
def Registry.Avoids (registry : Registry) (category : Category) : Prop :=
  ∀ r ∈ registry.rules, ∀ phase callback, r.callback? phase = some callback →
    ∀ p c, ∀ f ∈ (callback p c).findings, f.category ≠ category

/-- The reaction does no more than report under the category. -/
structure Reaction.OnlyReports (category : Category) (reaction : Reaction) : Prop where
  findings : ∀ f ∈ reaction.findings, f.category = category
  edits : reaction.edits = []
  transform : reaction.transform = .unchanged ∨ reaction.transform = .reported
  cancels : reaction.cancels = false

/-- The callbacks of the rule do no more than report under its category. They may look at anything
    to decide about that. -/
def Rule.OnlyReports (r : Rule) : Prop :=
  ∀ phase callback, r.callback? phase = some callback →
    ∀ p c, (callback p c).OnlyReports r.category

/-- What only reports is quiet. -/
theorem Reaction.OnlyReports.isQuiet {category : Category} {reaction : Reaction}
    (h : reaction.OnlyReports category) (p : Path) : reaction.IsQuiet p := by
  refine ⟨?_, h.cancels⟩
  unfold Reaction.requests
  rcases h.transform with htransform | htransform
  · rw [htransform, h.edits]
  · rw [htransform, h.edits]

/-! ### Leaving out a category -/

/-- The diagnostics of all categories but one. -/
def besides (category : Category) (ds : List Diagnostic) : List Diagnostic :=
  ds.filter (·.category ≠ category)

/-- Diagnostics of other categories stay. -/
theorem besides_eq_self {category : Category} {ds : List Diagnostic}
    (h : ∀ d ∈ ds, d.category ≠ category) : besides category ds = ds :=
  List.filter_eq_self.mpr fun d hd => decide_eq_true (h d hd)

/-- Diagnostics of the category go. -/
theorem besides_eq_nil {category : Category} {ds : List Diagnostic}
    (h : ∀ d ∈ ds, d.category = category) : besides category ds = [] :=
  List.filter_eq_nil_iff.mpr fun d hd => by simp [h d hd]

theorem besides_append (category : Category) (ds ds' : List Diagnostic) :
    besides category (ds ++ ds') = besides category ds ++ besides category ds' :=
  List.filter_append ..

/-- The engine does not look at categories when it takes a pass into account. -/
theorem recordLaw_besides (category : Category) :
    RecordLaw fun ds ds' => ds = besides category ds' where
  nil := rfl
  append := by
    rintro as as' bs bs' rfl rfl
    exact (besides_append category as' bs').symm
  applied := by
    rintro ds ds' rfl
    unfold besides
    rw [List.filter_filter, List.filter_filter]
    exact List.filter_congr fun d _ => Bool.and_comm _ _
  judged := by
    rintro ds ds' rfl a
    unfold besides
    rw [List.filter_map]
    rfl

/-- What is collected of findings has the categories of the findings. -/
theorem Collector.category_of_mem_diagnosed {c : Collector} {fs : List Finding} {d : Diagnostic}
    (h : d ∈ c.diagnosed fs) : ∃ f ∈ fs, d.category = f.category := by
  obtain ⟨f, hf, rfl⟩ := List.mem_map.mp h
  exact ⟨f, (List.mem_filter.mp hf).1, c.category_diagnose f⟩

/-! ### Walks -/

/-- The states agree, once the diagnostics of the category are left out of the second one. -/
structure WalkState.Besides (category : Category) (s t : WalkState) : Prop where
  collector : s.collector
    = { t.collector with diagnostics := besides category t.collector.diagnostics }
  edits : s.edits = t.edits
  cancelled : s.cancelled = t.cancelled

namespace WalkState.Besides

variable {category : Category} {s t : WalkState}

/-- The diagnostics agree besides those of the category. -/
theorem diagnostics (h : s.Besides category t) :
    s.collector.diagnostics = besides category t.collector.diagnostics := by
  rw [h.collector]

/-- The same categories are enabled. -/
theorem isEnabled (h : s.Besides category t) (category' : Category) :
    s.collector.isEnabled category' = t.collector.isEnabled category' := by
  rw [h.collector]
  rfl

/-- Directives open and close scopes in both walks alike. -/
theorem scopeClosed : ScopeClosed (WalkState.Besides category) where
  under h scope := by
    cases scope with
    | none => exact h
    | some suppression =>
      exact ⟨congrArg (·.suppress suppression) h.collector, h.edits, h.cancelled⟩
  leave h scope := by
    cases scope with
    | none => exact h
    | some suppression => exact ⟨congrArg Collector.lift h.collector, h.edits, h.cancelled⟩

/-- A reaction that does not report under the category keeps the states related. -/
theorem react (h : s.Besides category t) (r : Rule) (phase : Phase) (p : Path)
    {reaction : Reaction} (havoids : ∀ f ∈ reaction.findings, f.category ≠ category) :
    (s.react r phase p reaction).Besides category (t.react r phase p reaction) where
  collector := by
    -- The same is added in both walks, and none of it is left out.
    have hadded : besides category (t.collector.diagnosed reaction.findings)
        = t.collector.diagnosed reaction.findings := by
      refine besides_eq_self fun d hd => ?_
      obtain ⟨f, hf, hcategory⟩ := Collector.category_of_mem_diagnosed hd
      rw [hcategory]
      exact havoids f hf
    rw [collector_react, collector_react, besides_append, hadded, h.collector]
    rfl
  edits := congrArg ((reaction.requests p).foldl (request (p.here :: p.above))) h.edits
  cancelled := congrArg (· || reaction.cancels) h.cancelled

/-- Nor does it matter if only the second state gets a report under the category. -/
theorem react_right (h : s.Besides category t) (r : Rule) (phase : Phase) (p : Path)
    {reaction : Reaction} (hreports : reaction.OnlyReports category) :
    s.Besides category (t.react r phase p reaction) where
  collector := by
    -- All that is added in the second walk is left out.
    have hadded : besides category (t.collector.diagnosed reaction.findings) = [] := by
      refine besides_eq_nil fun d hd => ?_
      obtain ⟨f, hf, hcategory⟩ := Collector.category_of_mem_diagnosed hd
      rw [hcategory]
      exact hreports.findings f hf
    rw [collector_react, besides_append, hadded, List.append_nil]
    exact h.collector
  edits := by
    show s.edits = (reaction.requests p).foldl _ t.edits
    rw [(hreports.isQuiet p).1]
    exact h.edits
  cancelled := by
    show s.cancelled = (t.cancelled || reaction.cancels)
    rw [hreports.cancels, Bool.or_false]
    exact h.cancelled

end WalkState.Besides

section Walks

variable {registry : Registry} {category : Category} {s t : WalkState}

/-- A rule of the registry answers alike in both walks. -/
theorem besides_runRule (hcontents : registry.IgnoresContents) (havoids : registry.Avoids category)
    {r : Rule} (hr : r ∈ registry.rules) (phase : Phase) (p : Path) (h : s.Besides category t) :
    AnswersAlike (WalkState.Besides category) (runRule r phase p s) (runRule r phase p t) := by
  cases hcallback : r.callback? phase with
  | none =>
    rw [runRule_of_none hcallback, runRule_of_none hcallback]
    exact ⟨rfl, h⟩
  | some callback =>
    have hreaction : callback p s.collector = callback p t.collector := by
      rw [h.collector]
      exact hcontents r hr phase callback hcallback p t.collector _
    refine answersAlike_runRule WalkState.Besides.edits hcallback hcallback rfl
      (h.isEnabled r.category) (by rw [hreaction]) (fun h => ?_) h
    rw [hreaction]
    exact h.react r phase p (havoids r hr phase callback hcallback p t.collector)

/-- The rule that was added leaves the node alone and keeps the states related. -/
theorem besides_reporter {r : Rule} (hr : r.OnlyReports) (phase : Phase) (p : Path)
    (h : s.Besides r.category t) :
    (runRule r phase p t).1 = some p.here.graft ∧
      s.Besides r.category (runRule r phase p t).2 := by
  cases hcallback : r.callback? phase with
  | none =>
    rw [runRule_of_none hcallback]
    exact ⟨rfl, h⟩
  | some callback =>
    have hreports := hr phase callback hcallback p t.collector
    refine ⟨(ran_quiet hcallback (hreports.isQuiet p)).result, ?_⟩
    rw [state_runRule hcallback]
    split
    · exact h.react_right r phase p hreports
    · exact h

/-- Rules in turn, with the one that was added as the last one of the second walk. -/
theorem besides_runRules {r : Rule} (hr : r.OnlyReports) {rules : List Rule} {phase : Phase}
    (hrules : ∀ r' ∈ rules, ∀ p s t, s.Besides r.category t →
      AnswersAlike (WalkState.Besides r.category) (runRule r' phase p s) (runRule r' phase p t))
    (p : Path) (h : s.Besides r.category t) :
    AnswersAlike (WalkState.Besides r.category) (runRules phase rules p s)
      (runRules phase (rules ++ [r]) p t) := by
  induction rules generalizing p s t with
  | nil =>
    obtain ⟨hgraft, hstates⟩ := besides_reporter hr phase p h
    rw [List.nil_append, runRules, runRules]
    generalize runRule r phase p t = out at hgraft hstates ⊢
    obtain ⟨g, t'⟩ := out
    obtain rfl : g = some p.here.graft := hgraft
    exact ⟨rfl, hstates⟩
  | cons r' rules ih =>
    exact (hrules r' List.mem_cons_self p s t h).runRules_cons fun p _ _ h' =>
      ih (fun r'' hr'' => hrules r'' (List.mem_cons_of_mem r' hr'')) p h'

/-- **Walks with and without the rule that was added stay side by side.** -/
theorem reporterLock {registry' : Registry} {r : Rule} (hcontents : registry.IgnoresContents)
    (havoids : registry.Avoids r.category) (hr : r.OnlyReports)
    (hrules : registry'.rules = registry.rules ++ [r])
    (hsupports : registry'.supports = registry.supports) :
    Lockstep registry registry' (WalkState.Besides r.category) where
  closed := WalkState.Besides.scopeClosed
  supports _ := by rw [hsupports]
  rules h phase kind p := by
    have hcommon : ∀ r' ∈ registry.lookup kind, ∀ p s t, s.Besides r.category t →
        AnswersAlike (WalkState.Besides r.category) (runRule r' phase p s)
          (runRule r' phase p t) :=
      fun r' hr' p _ _ h' =>
        besides_runRule hcontents havoids (Registry.mem_lookup.mp hr').1 phase p h'
    -- The rule that was added may or may not look at nodes of the kind.
    have hlookup : registry'.lookup kind
        = registry.lookup kind ++ if r.accepts kind then [r] else [] := by
      rw [Registry.lookup_eq_filter, Registry.lookup_eq_filter, hrules, List.filter_append,
        List.filter_singleton, cond_eq_ite]
    rw [hlookup]
    split
    · exact besides_runRules hr hcommon p h
    · rw [List.append_nil]
      exact answersAlike_runRules hcommon p h

end Walks

/-! ### Runs -/

namespace Engine

/-- **A rule that only reports changes nothing but the report.** Take rules that do not look at what
    was collected and do not report under the category of `r`, and add `r` as the last one, with a
    name that is new. Whatever the settings and the tree, the run without `r` and the run with it
    fail with one error, or have the same tree, conflicts, warnings and number of passes, and both
    converge or neither does; and without the diagnostics of the category of `r` the second one
    reports exactly what the first one reports, in the same order. -/
theorem run_register_reporter (registry : Registry) (r : Rule) (hname : r.name ∉ registry.names)
    (hcontents : registry.IgnoresContents) (havoids : registry.Avoids r.category)
    (hr : r.OnlyReports) :
    ∃ registry', registry.register r = .ok registry' ∧
      ∀ (config : Config) (cancelled : Bool) (tree : Node),
        (Engine.run ⟨registry, config⟩ cancelled tree).Matched
          (Outcome.Matched Eq fun ds ds' => ds = ds'.filter (·.category ≠ r.category))
          (Engine.run ⟨registry', config⟩ cancelled tree) := by
  obtain ⟨registry', hregister, hrules, hsupports⟩ := Registry.register_of_new hname
  refine ⟨registry', hregister, fun config cancelled tree => ?_⟩
  rw [run_eq_runWith, run_eq_runWith]
  refine matched_runWith .eq (recordLaw_besides r.category) rfl ?_ cancelled rfl
  rintro i cancelled tree _ rfl
  rw [runPass_eq_ofWalk, runPass_eq_ofWalk]
  refine matched_ofWalk WalkState.Besides.edits WalkState.Besides.diagnostics
    WalkState.Besides.cancelled cancelled (Lockstep.coupled_traverse ?_ config.maxDepth tree ?_)
  · exact reporterLock hcontents havoids hr hrules hsupports
  · exact ⟨rfl, rfl, rfl⟩

end Engine

/-- Report the texts that are met while fewer than two diagnostics have been collected. -/
def firstTexts : Rule where
  name := "first-texts"
  category := ⟨"FIRST"⟩
  accepts k := k = .text
  enter := some fun p c =>
    if c.size < 2 then .report p ⟨"FIRST"⟩ ⟨"first-texts"⟩ else .nothing
  exit := none

/-- The rule reports texts and does nothing else. -/
theorem onlyReports_firstTexts : firstTexts.OnlyReports := by
  intro phase callback hcallback p c
  cases phase with
  | exit => cases hcallback
  | enter =>
    cases hcallback
    show Reaction.OnlyReports ⟨"FIRST"⟩ (if c.size < 2 then _ else _)
    split
    · exact ⟨by simp [Reaction.report], rfl, .inr rfl, rfl⟩
    · exact ⟨by simp [Reaction.nothing], rfl, .inl rfl, rfl⟩

/-- The rules of the sample ask no more than whether fixes are to be made. -/
theorem ignoresContents_repairRegistry : repairRegistry.IgnoresContents := by
  intro r hr phase callback hcallback p c diagnostics
  simp only [repairRegistry, List.mem_cons, List.not_mem_nil, or_false] at hr
  rcases hr with rfl | rfl
  · cases phase <;> cases hcallback
    rfl
  · cases phase <;> cases hcallback
    rfl

/-- No other rule reports under its category. -/
theorem avoids_repairRegistry : repairRegistry.Avoids firstTexts.category := by
  have hrepairing : ∀ name kind change phase callback,
      (repairing name kind change).callback? phase = some callback →
      ∀ p c, ∀ f ∈ (callback p c).findings, f.category ≠ firstTexts.category := by
    intro name kind change phase callback hcallback p c f hf
    cases phase <;> cases hcallback
    simp only at hf
    split at hf
    · exact absurd hf List.not_mem_nil
    · obtain rfl := List.mem_singleton.mp hf
      simp [firstTexts]
  intro r hr
  simp only [repairRegistry, List.mem_cons, List.not_mem_nil, or_false] at hr
  rcases hr with rfl | rfl
  · exact hrepairing _ _ _
  · exact hrepairing _ _ _

/-- The sample run takes three passes. The rule that was added reports texts in all of them; only
    what it reports in the last one is part of the outcome. -/
theorem run_register_reporter_sample :
    firstTexts.name ∉ repairRegistry.names ∧ repairRegistry.IgnoresContents ∧
      repairRegistry.Avoids firstTexts.category ∧ firstTexts.OnlyReports ∧
      ∃ registry' o o', repairRegistry.register firstTexts = .ok registry' ∧
        (Engine.run ⟨repairRegistry, sampleConfig 5⟩ false sampleTree).result = .ok o ∧
        (Engine.run ⟨registry', sampleConfig 5⟩ false sampleTree).result = .ok o' ∧
        o.diagnostics.map (·.category.id) = ["SAMPLE", "SAMPLE", "SAMPLE"] ∧
        o'.diagnostics.map (·.category.id)
          = ["SAMPLE", "SAMPLE", "SAMPLE", "FIRST", "FIRST"] ∧
        o.tree = o'.tree ∧ o.iterations = o'.iterations ∧
        o.diagnostics = o'.diagnostics.filter (·.category ≠ firstTexts.category) := by
  have hname : firstTexts.name ∉ repairRegistry.names := by decide
  refine ⟨hname, ignoresContents_repairRegistry, avoids_repairRegistry, onlyReports_firstTexts, ?_⟩
  obtain ⟨registry', hregister, hmatched⟩ := Engine.run_register_reporter repairRegistry firstTexts
    hname ignoresContents_repairRegistry avoids_repairRegistry onlyReports_firstTexts
  have hrun : ((Engine.run ⟨repairRegistry, sampleConfig 5⟩ false
      sampleTree).result.toOption.map fun o => o.diagnostics.map (·.category.id))
      = some ["SAMPLE", "SAMPLE", "SAMPLE"] := by decide +kernel
  have hrun' : ((repairRegistry.register firstTexts).toOption.bind fun registry' =>
      (Engine.run ⟨registry', sampleConfig 5⟩ false sampleTree).result.toOption.map
        fun o => o.diagnostics.map (·.category.id))
      = some ["SAMPLE", "SAMPLE", "SAMPLE", "FIRST", "FIRST"] := by decide +kernel
  obtain ⟨o, ho, hcategories⟩ := exists_ok_of_map_toOption hrun
  obtain ⟨o', ho', houtcome⟩ := (hmatched (sampleConfig 5) false sampleTree).exists_ok ho
  rw [hregister] at hrun'
  have hcategories' : o'.diagnostics.map (·.category.id)
      = ["SAMPLE", "SAMPLE", "SAMPLE", "FIRST", "FIRST"] := by
    simpa [Except.toOption, ho'] using hrun'
  exact ⟨registry', o, o', hregister, ho, ho', hcategories, hcategories', houtcome.tree,
    houtcome.iterations, houtcome.diagnostics⟩

end TreeLint
