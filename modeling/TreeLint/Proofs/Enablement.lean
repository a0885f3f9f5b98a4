import Mathlib
import TreeLint.Proofs.Collector
import TreeLint.Proofs.Registration
import TreeLint.Proofs.Tandem
import TreeLint.Rule.Builtin

namespace TreeLint

/-!
# Disabled categories

The settings can list the categories to report. That is looked at in two places: a rule of another
category is not asked, and a finding of another category is dropped, whatever rule it comes from.
Together they come to the same as not registering the rules of the other categories.

* `SameUnder`: the two walks are in the same state, which holds diagnostics of the listed categories
  only. `sameUnder_runRules`: asking all rules comes to the same as asking those of listed
  categories.
* `enablementLock` is the law for the walks, and `Engine.run_restricted` the result for runs.
-/

/-- The rules whose categories are listed. -/
def rulesUnder (ids : List String) (rules : List Rule) : List Rule :=
  rules.filter fun r => ids.contains r.category.id

/-! ### Walks -/

/-- The two states are the same. The listed categories are those to report, and what was collected
    is of these categories. -/
structure SameUnder (ids : List String) (s t : WalkState) : Prop where
  eq : s = t
  isEnabled : ∀ category, s.collector.isEnabled category = ids.contains category.id
  diagnostics : ∀ d ∈ s.collector.diagnostics, d.category.id ∈ ids

namespace SameUnder

variable {ids : List String} {s t : WalkState}

theorem scopeClosed : ScopeClosed (SameUnder ids) where
  under h scope := by
    obtain rfl := h.eq
    cases scope with
    | none => exact h
    | some suppression => exact ⟨rfl, h.isEnabled, h.diagnostics⟩
  leave h scope := by
    obtain rfl := h.eq
    cases scope with
    | none => exact h
    | some suppression => exact ⟨rfl, h.isEnabled, h.diagnostics⟩

/-- Findings of other categories are dropped, so that a reaction keeps the state as it should be. -/
theorem react (h : SameUnder ids s s) (r : Rule) (phase : Phase) (p : Path)
    (reaction : Reaction) :
    SameUnder ids (s.react r phase p reaction) (s.react r phase p reaction) where
  eq := rfl
  isEnabled := by
    rw [collector_react]
    exact h.isEnabled
  diagnostics := by
    rw [collector_react]
    intro d hd
    rcases List.mem_append.mp hd with hd | hd
    · exact h.diagnostics d hd
    · -- Only findings of enabled categories become diagnostics, whatever rule reported them.
      obtain ⟨f, hf, rfl⟩ := List.mem_map.mp hd
      have henabled := (List.mem_filter.mp hf).2
      rw [h.isEnabled] at henabled
      rw [Collector.category_diagnose]
      exact List.contains_iff_mem.mp henabled

theorem runRule (h : SameUnder ids s t) (r : Rule) (phase : Phase) (p : Path) :
    AnswersAlike (SameUnder ids) (runRule r phase p s) (runRule r phase p t) := by
  obtain rfl := h.eq
  refine ⟨rfl, ?_⟩
  have hasked := asked_runRule r phase p s
  generalize TreeLint.runRule r phase p s = out at hasked ⊢
  cases hasked with
  | skipped => exact h
  | left => exact h.react r phase p _
  | replaced => exact h.react r phase p _
  | removed => exact h.react r phase p _

end SameUnder

/-- A rule of a category that is not reported is passed over. -/
theorem runRule_of_disabled {r : Rule} {s : WalkState}
    (h : s.collector.isEnabled r.category = false) (phase : Phase) (p : Path) :
    runRule r phase p s = (some p.here.graft, s) := by
  unfold runRule
  cases r.callback? phase with
  | none => rfl
  | some callback => simp only [h, Bool.and_false, Bool.false_eq_true, if_false]

/-- **Rules in turn.** Asking all rules comes to the same as asking those of listed categories. -/
theorem sameUnder_runRules {ids : List String} (phase : Phase) (rules : List Rule) (p : Path)
    {s t : WalkState} (h : SameUnder ids s t) :
    AnswersAlike (SameUnder ids) (runRules phase rules p s)
      (runRules phase (rulesUnder ids rules) p t) := by
  induction rules generalizing p s t with
  | nil => exact ⟨rfl, h⟩
  | cons r rules ih =>
    unfold rulesUnder at ih ⊢
    by_cases hlisted : ids.contains r.category.id = true
    · rw [List.filter_cons, if_pos hlisted]
      exact (h.runRule r phase p).runRules_cons fun p _ _ h' => ih p h'
    · -- The rule is passed over: the next ones see the node and the state as they are.
      have hdisabled : s.collector.isEnabled r.category = false :=
        (h.isEnabled r.category).trans (Bool.eq_false_iff.mpr hlisted)
      rw [List.filter_cons, if_neg hlisted, runRules, runRule_of_disabled hdisabled]
      exact ih p h

/-- **Walks with all rules and with those of listed categories stay side by side.** -/
theorem enablementLock {registry registry' : Registry} {ids : List String}
    (hrules : registry'.rules = rulesUnder ids registry.rules)
    (hsupports : registry'.supports = registry.supports) :
    Lockstep registry registry' (SameUnder ids) where
  closed := SameUnder.scopeClosed
  supports _ := by rw [hsupports]
  rules h phase kind p := by
    have hlookup : registry'.lookup kind = rulesUnder ids (registry.lookup kind) := by
      rw [Registry.lookup_eq_filter, Registry.lookup_eq_filter, hrules, rulesUnder, rulesUnder,
        List.filter_filter, List.filter_filter]
      exact List.filter_congr fun r _ => Bool.and_comm _ _
    rw [hlookup]
    exact sameUnder_runRules phase (registry.lookup kind) p h

/-! ### Runs -/

/-- The same diagnostics, all of listed categories. -/
def SameListed (ids : List String) (ds ds' : List Diagnostic) : Prop :=
  ds = ds' ∧ ∀ d ∈ ds, d.category.id ∈ ids

theorem SameUnder.sameListed {ids : List String} {s t : WalkState} (h : SameUnder ids s t) :
    SameListed ids s.collector.diagnostics t.collector.diagnostics := by
  obtain rfl := h.eq
  exact ⟨rfl, h.diagnostics⟩

/-- The engine adds no diagnostics to those of the passes, and does not change their categories. -/
theorem recordLaw_sameListed (ids : List String) : RecordLaw (SameListed ids) where
  nil := ⟨rfl, fun d hd => absurd hd List.not_mem_nil⟩
  append := by
    rintro as _ bs _ ⟨rfl, has⟩ ⟨rfl, hbs⟩
    refine ⟨rfl, fun d hd => ?_⟩
    rcases List.mem_append.mp hd with hd | hd
    · exact has d hd
    · exact hbs d hd
  applied := by
    rintro ds _ ⟨rfl, hds⟩
    exact ⟨rfl, fun d hd => hds d (List.mem_filter.mp hd).1⟩
  judged := by
    rintro ds _ ⟨rfl, hds⟩ a
    refine ⟨rfl, fun d hd => ?_⟩
    obtain ⟨d', hd', rfl⟩ := List.mem_map.mp hd
    exact hds d' hd'

namespace Engine

/-- A run depends on the rules through its passes only. -/
theorem run_congr {e e' : Engine} (hconfig : e.config = e'.config)
    (hpass : ∀ cancelled tree, e.runPass cancelled tree = e'.runPass cancelled tree)
    (cancelled : Bool) (tree : Node) : e.run cancelled tree = e'.run cancelled tree := by
  have hpasses : e.runPass = e'.runPass := funext fun cancelled => funext (hpass cancelled)
  rw [run_eq_runWith, run_eq_runWith, hpasses]
  unfold runWith
  rw [hconfig]

theorem isEnabled_collector {e : Engine} {ids : List String}
    (h : e.config.enabledCategories = some ids) (category : Category) :
    e.collector.isEnabled category = ids.contains category.id := by
  have hcategories : e.config.categories = some (ids.map Category.mk) := by
    unfold Config.categories
    rw [h]
    rfl
  obtain ⟨id⟩ := category
  show (e.config.categories.all fun listed => listed.contains ⟨id⟩) = ids.contains id
  rw [hcategories]
  simp

section Restriction

variable {registry registry' : Registry} {config : Config} {ids : List String}

/-- Walks over a whole tree stay side by side from the beginning. -/
theorem coupled_restricted (hids : config.enabledCategories = some ids)
    (hrules : registry'.rules = rulesUnder ids registry.rules)
    (hsupports : registry'.supports = registry.supports) (tree : Node) :
    Coupled (SameUnder ids) Eq
      (traverse registry config.maxDepth tree (collector ⟨registry, config⟩))
      (traverse registry' config.maxDepth tree (collector ⟨registry', config⟩)) := by
  refine (enablementLock hrules hsupports).coupled_traverse config.maxDepth tree ⟨rfl, ?_, ?_⟩
  · exact isEnabled_collector hids
  · exact fun d hd => absurd hd List.not_mem_nil

/-- The runs are the same in every respect. -/
theorem run_eq_of_restricted (hids : config.enabledCategories = some ids)
    (hrules : registry'.rules = rulesUnder ids registry.rules)
    (hsupports : registry'.supports = registry.supports) (cancelled : Bool) (tree : Node) :
    Engine.run ⟨registry, config⟩ cancelled tree
      = Engine.run ⟨registry', config⟩ cancelled tree := by
  refine run_congr ?_ (fun cancelled tree => ?_) cancelled tree
  · rfl
  · obtain ⟨hresult, hstates⟩ := (coupled_restricted hids hrules hsupports tree).eq
    rw [runPass_eq_ofWalk, runPass_eq_ofWalk]
    exact congrArg (Run.ofWalk cancelled) (Prod.ext hresult hstates.eq)

/-- What they report is of the categories to report. -/
theorem category_of_restricted (hids : config.enabledCategories = some ids)
    (hrules : registry'.rules = rulesUnder ids registry.rules)
    (hsupports : registry'.supports = registry.supports) {cancelled : Bool} {tree : Node}
    {o : Outcome} (h : (Engine.run ⟨registry, config⟩ cancelled tree).result = .ok o) :
    ∀ d ∈ o.diagnostics, d.category.id ∈ ids := by
  have hpass : ∀ (i : Nat) (cancelled : Bool) (tree tree' : Node), tree = tree' →
      (runPass ⟨registry, config⟩ cancelled tree).Matched
        (PassResult.Matched Eq (SameListed ids)) (runPass ⟨registry', config⟩ cancelled tree') := by
    rintro i cancelled tree _ rfl
    rw [runPass_eq_ofWalk, runPass_eq_ofWalk]
    exact matched_ofWalk (fun h => congrArg WalkState.edits h.eq) SameUnder.sameListed
      (fun h => congrArg WalkState.cancelled h.eq) cancelled
      (coupled_restricted hids hrules hsupports tree)
  rw [run_eq_runWith] at h
  obtain ⟨o', -, houtcome⟩ := (matched_runWith (e := ⟨registry, config⟩) FixLaw.eq
    (recordLaw_sameListed ids) rfl hpass cancelled rfl).exists_ok h
  exact houtcome.diagnostics.2

end Restriction

/-- **Disabling categories is the same as not registering their rules.** Take rules with distinct
    names, any set of supported kinds and any list of categories. Whatever the other settings and
    the tree, a run of all the rules with the listed categories enabled is the same in every respect
    as a run of the rules of listed categories, registered in the same order; and every diagnostic
    of its outcome is of a listed category. -/
theorem run_restricted (rules : List Rule) (hnames : (rules.map Rule.name).Nodup)
    (supports : Kind → Bool) (ids : List String) :
    ∃ all listed,
      Registry.registerAll { Registry.empty with supports } rules = (.ok (), all) ∧
      Registry.registerAll { Registry.empty with supports }
        (rules.filter fun r => ids.contains r.category.id) = (.ok (), listed) ∧
      ∀ (config : Config) (cancelled : Bool) (tree : Node),
        let settings := { config with enabledCategories := some ids }
        Engine.run ⟨all, settings⟩ cancelled tree = Engine.run ⟨listed, settings⟩ cancelled tree ∧
          ∀ o, (Engine.run ⟨all, settings⟩ cancelled tree).result = .ok o →
            ∀ d ∈ o.diagnostics, d.category.id ∈ ids := by
  have hlistedNames : ((rulesUnder ids rules).map Rule.name).Nodup :=
    hnames.sublist (List.filter_sublist.map Rule.name)
  obtain ⟨all, hall, hallRules, hallSupports⟩ :=
    Registry.registerAll_of_nodup { Registry.empty with supports } hnames
  obtain ⟨listed, hlisted, hlistedRules, hlistedSupports⟩ :=
    Registry.registerAll_of_nodup { Registry.empty with supports } hlistedNames
  have hrules : listed.rules = rulesUnder ids all.rules := by
    rw [hlistedRules, hallRules]
    rfl
  exact ⟨all, listed, hall, hlisted, fun config cancelled tree =>
    ⟨run_eq_of_restricted rfl hrules (hlistedSupports.trans hallSupports.symm) cancelled tree,
      fun o ho => category_of_restricted rfl hrules (hlistedSupports.trans hallSupports.symm) ho⟩⟩

end Engine

/-- Report comments, under a category that is not the one of the rule. -/
def strayReports : Rule where
  name := "stray-reports"
  category := ⟨"HTML_NO_EMPTY_COMMENT"⟩
  accepts k := k = .comment
  enter := some fun p _ => .report p ⟨"STRAY"⟩ ⟨"stray"⟩
  exit := none

/-- The rules for the sample. -/
def sampleRules : List Rule := Builtin.rules ++ [strayReports]

/-- An empty comment, another one, and an element that is not self-closing. -/
def commentedPage : Node :=
  .ofPayload .document
    [.ofPayload (.comment " ") [], .ofPayload (.comment "note") [],
      .ofPayload (.element "br" [] false) []]

/-- The settings for the sample: fixes are made, and one category is reported. -/
def commentSettings : Config where
  applyFixes := true
  enabledCategories := some ["HTML_NO_EMPTY_COMMENT"]

/-- With one category enabled, only the empty comment goes and only that is reported; two of the
    seven rules would have been enough. -/
theorem run_restricted_comments :
    (sampleRules.map Rule.name).Nodup ∧
      ∃ all listed o,
        Registry.registerAll { Registry.empty with supports := fun _ => true } sampleRules
          = (.ok (), all) ∧
        Registry.registerAll { Registry.empty with supports := fun _ => true }
          (sampleRules.filter fun r => ["HTML_NO_EMPTY_COMMENT"].contains r.category.id)
          = (.ok (), listed) ∧
        all.size = 7 ∧ listed.size = 2 ∧
        (Engine.run ⟨all, commentSettings⟩ false commentedPage).result = .ok o ∧
        (Engine.run ⟨listed, commentSettings⟩ false commentedPage).result = .ok o ∧
        o.diagnostics.map (fun d => (d.category.id, d.status))
          = [("HTML_NO_EMPTY_COMMENT", .applied)] ∧
        o.tree.children.map Node.kind = [.comment, .element] ∧
        ∀ d ∈ o.diagnostics, d.category.id ∈ ["HTML_NO_EMPTY_COMMENT"] := by
  have hnames : (sampleRules.map Rule.name).Nodup := by decide
  refine ⟨hnames, ?_⟩
  obtain ⟨all, listed, hall, hlisted, hruns⟩ := Engine.run_restricted sampleRules hnames
    (fun _ => true) ["HTML_NO_EMPTY_COMMENT"]
  obtain ⟨hsame, hcategories⟩ := hruns commentSettings false commentedPage
  obtain rfl : Prod.snd _ = all := congrArg Prod.snd hall
  obtain rfl : Prod.snd _ = listed := congrArg Prod.snd hlisted
  have hrun : ((Engine.run
      ⟨(Registry.registerAll { Registry.empty with supports := fun _ => true } sampleRules).2,
        commentSettings⟩ false commentedPage).result.toOption.map fun o =>
      (o.diagnostics.map (fun d => (d.category.id, d.status)), o.tree.children.map Node.kind))
      = some ([("HTML_NO_EMPTY_COMMENT", .applied)], [.comment, .element]) := by decide +kernel
  obtain ⟨o, ho, hvalues⟩ := exists_ok_of_map_toOption hrun
  simp only [Prod.mk.injEq] at hvalues
  exact ⟨_, _, o, hall, hlisted, by decide +kernel, by decide +kernel, ho,
    (congrArg Run.result hsame).symm.trans ho, hvalues.1, hvalues.2, hcategories o ho⟩

end TreeLint
