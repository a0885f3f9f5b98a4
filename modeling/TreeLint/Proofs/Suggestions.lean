import Mathlib
import TreeLint.Proofs.Pointing
import TreeLint.Proofs.Reapplication
import TreeLint.Proofs.Tour

namespace TreeLint

/-!
# The suggestions of a dry run apply

With the built-in rules, what a dry run suggests fits the tree that it was made for: the patches are
for the nodes of the tree, at different locations, and applying all of them fails nowhere.

* `Registry.describing` are the rules as they are when fixes are only described. Walks that describe
  fixes are the same with them (`traverse_describing`), and where they queue nothing such a walk is
  the tour of the tree (`forall₂_isAt_of_describes`), on which no rule is asked twice at a
  location (`nodup_asked_of_describes`).
* `Remark.suggestionsOf_findings`: a remark suggests at most one patch, and it is for the node.
* `Builtin.repairer`: only one of the built-in rules can have a repair for a node.
* `applySuggestions_of_fresh`: patches that fit the tree and are at different locations are made,
  except those below another one.
* `Builtin.run_suggestions_apply` is the result.
-/

/-! ### Places -/

/-- A tree is as high as its places are deep. -/
theorem Node.height_le_of_follow? {n : Node} {k : Nat}
    (h : ∀ is m, n.follow? is = some m → is.length ≤ k) : n.height ≤ k := by
  induction n generalizing k with
  | node payload span cs ih =>
    rw [height]
    refine heightAll_le fun c hc => ?_
    obtain ⟨i, hi⟩ := List.getElem?_of_mem hc
    have hbelow : ∀ is m, c.follow? is = some m → is.length + 1 ≤ k := by
      intro is m hm
      exact h (i :: is) m (follow?_cons_eq_some.mpr ⟨c, hi, hm⟩)
    have hpos := hbelow [] c rfl
    have hle : c.height ≤ k - 1 := by
      apply ih c hc
      intro is m hm
      have := hbelow is m hm
      omega
    simp only [List.length_nil] at hpos
    omega

/-! ### Walks that only describe fixes -/

/-- The collector with which fixes are only described. -/
def Collector.describing (c : Collector) : Collector := { c with mode := .describeOnly }

/-- The callback as it is when fixes are only described. -/
def Callback.describing (callback : Callback) : Callback := fun p c => callback p c.describing

/-- The rule as it is when fixes are only described. -/
def Rule.describing (r : Rule) : Rule :=
  { r with
    enter := r.enter.map Callback.describing
    exit := r.exit.map Callback.describing }

/-- The rules as they are when fixes are only described. -/
def Registry.describing (registry : Registry) : Registry where
  rules := registry.rules.map Rule.describing
  supports := registry.supports
  names_nodup := by
    rw [List.map_map]
    exact registry.names_nodup

/-- A collector that describes is not changed. -/
theorem Collector.describing_of_mode {c : Collector} (h : c.mode = .describeOnly) :
    c.describing = c := by
  unfold describing
  rw [← h]

/-- The callbacks are those of the rule, with a collector that describes. -/
theorem Rule.callback?_describing (r : Rule) (phase : Phase) :
    r.describing.callback? phase = (r.callback? phase).map Callback.describing := by
  cases phase with
  | enter => rfl
  | exit => rfl

/-- Where fixes are described anyway, a rule does the same. -/
theorem runRule_describing {s : WalkState} (hs : s.collector.mode = .describeOnly) (r : Rule)
    (phase : Phase) (p : Path) : runRule r.describing phase p s = runRule r phase p s := by
  have hdescribing := r.callback?_describing phase
  cases hcallback : r.callback? phase with
  | none =>
    rw [hcallback] at hdescribing
    rw [runRule_of_none hcallback, runRule_of_none hdescribing]
  | some callback =>
    rw [hcallback] at hdescribing
    have hreaction : callback.describing p s.collector = callback p s.collector := by
      unfold Callback.describing
      rw [Collector.describing_of_mode hs]
    unfold runRule
    rw [hcallback, hdescribing]
    simp only [Option.map_some, hreaction]
    rfl

/-- Rules do not switch the mode. -/
theorem mode_runRule (r : Rule) (phase : Phase) (p : Path) (s : WalkState) :
    (runRule r phase p s).2.collector.mode = s.collector.mode := by
  cases hcallback : r.callback? phase with
  | none => rw [runRule_of_none hcallback]
  | some callback =>
    rw [state_runRule hcallback]
    split
    · rw [collector_react]
    · rfl

/-- Walks that describe fixes stay in the same state. -/
theorem describingLock (registry : Registry) :
    Lockstep registry registry.describing
      (fun s t => s = t ∧ s.collector.mode = .describeOnly) where
  closed := by
    constructor
    · rintro s _ ⟨rfl, hs⟩ scope
      cases scope with
      | none => exact ⟨rfl, hs⟩
      | some d => exact ⟨rfl, hs⟩
    · rintro s _ ⟨rfl, hs⟩ scope
      cases scope with
      | none => exact ⟨rfl, hs⟩
      | some d => exact ⟨rfl, hs⟩
  supports _ := rfl
  rules h phase kind p := by
    have hlookup : registry.describing.lookup kind
        = (registry.lookup kind).map Rule.describing := by
      rw [Registry.lookup_eq_filter, Registry.lookup_eq_filter]
      exact List.filter_map ..
    rw [hlookup]
    refine answersAlike_runRules_map ?_ p h
    rintro r - p s _ ⟨rfl, hs⟩
    rw [runRule_describing hs]
    exact ⟨rfl, rfl, (mode_runRule r phase p s).trans hs⟩

/-- Where fixes are described anyway, so does the whole traversal. -/
theorem traverse_describing (registry : Registry) (maxDepth : Nat) (tree : Node) {c : Collector}
    (hc : c.mode = .describeOnly) :
    traverse registry.describing maxDepth tree c = traverse registry maxDepth tree c := by
  obtain ⟨hresult, hstate, -⟩ :=
    ((describingLock registry).coupled_traverse maxDepth tree ⟨rfl, hc⟩).eq
  exact (Prod.ext hresult hstate).symm

section Tour

variable {registry : Registry} (hquiet : registry.describing.QueuesNothing)
  (hsupports : ∀ kind, registry.supports kind = true) {maxDepth : Nat} {tree : Node}
  {c : Collector} (hc : c.mode = .describeOnly) {view : Option Node}
  (hview : (traverse registry maxDepth tree c).1 = .ok view)

include hquiet hc hview

/-- A walk that succeeds was not stopped by the limit. -/
theorem height_le_of_describes : tree.height ≤ maxDepth := by
  have hjudges : registry.describing.Judges maxDepth tree
      (traverse registry.describing maxDepth tree c).1 :=
    Registry.judges_walk hquiet maxDepth (Graft.isFinite_ofNode tree) (.start c)
  have hwalk : (traverse registry.describing maxDepth tree c).1 = .ok view := by
    rw [traverse_describing registry maxDepth tree hc]
    exact hview
  apply Node.height_le_of_follow?
  intro is m hm
  by_contra hdeep
  obtain ⟨err, herr⟩ := hjudges.fails_iff.mpr ⟨is, m, hm, .inr (not_le.mp hdeep)⟩
  rw [hwalk] at herr
  cases herr

include hsupports

/-- **A walk that describes fixes is the tour of the tree.** -/
theorem forall₂_isAt_of_describes :
    List.Forall₂ (Visit.IsAt tree) (traverse registry maxDepth tree c).2.visits.toList
      (tree.tour (registry.describing.asked c)) := by
  have hheight := height_le_of_describes hquiet hc hview
  obtain ⟨s, hwalk, htoured⟩ : ∃ s, traverse registry.describing maxDepth tree c
        = (.ok (some tree), s) ∧
      Toured (Path.ofNode tree Location.root) (tree.tour (registry.describing.asked c))
        (WalkState.start c) s :=
    toured_walk hquiet c maxDepth (by omega) (fun m _ => hsupports m.kind) rfl
  rw [traverse_describing registry maxDepth tree hc] at hwalk
  rw [hwalk]
  exact htoured.forall₂_isAt rfl

/-- No rule is asked twice at one location in one phase. -/
theorem nodup_asked_of_describes (htree : tree.Addressable) :
    ((traverse registry maxDepth tree c).2.visits.toList.map fun v =>
      (v.rule, v.phase, v.path.location)).Nodup := by
  have hisAt := forall₂_isAt_of_describes hquiet hsupports hc hview
  have hstops : (traverse registry maxDepth tree c).2.visits.toList.map
        (fun v => (v.rule, v.phase, v.path.location))
      = (tree.tour (registry.describing.asked c)).map
          fun st => (st.rule, st.phase, Location.ofNumbers st.numbers) := by
    rw [← List.forall₂_eq_eq_eq, List.forall₂_map_left_iff, List.forall₂_map_right_iff]
    exact hisAt.imp fun v st hv => by rw [hv.rule, hv.phase, hv.location]
  rw [hstops]
  refine (Node.nodup_tour (registry.describing.nodup_asked c) tree).map_on ?_
  intro st hst st' hst' heq
  obtain ⟨m, hm, -⟩ := Node.mem_tour.mp hst
  obtain ⟨m', hm', -⟩ := Node.mem_tour.mp hst'
  simp only [Prod.mk.injEq] at heq
  have hnumbers := Node.eq_of_ofNumbers_eq htree hm hm' heq.2.2
  obtain ⟨rule, phase, is⟩ := st
  obtain ⟨rule', phase', js⟩ := st'
  obtain ⟨rfl, rfl, -⟩ := heq
  obtain rfl : is = js := hnumbers
  rfl

end Tour

/-! ### What is suggested -/

/-- The patches that diagnostics come with, each for the location of its diagnostic. -/
def suggestionsOf (ds : List Diagnostic) : List (Location × Patch) :=
  ds.filterMap fun d => d.patch.map fun patch => (d.location.node, patch)

/-- The suggestions of a walk are those of its invocations, in order. -/
theorem suggestionsOf_flatMap (vs : List Visit) :
    suggestionsOf (vs.flatMap Visit.added) = vs.flatMap fun v => suggestionsOf v.added := by
  unfold suggestionsOf
  rw [List.filterMap_flatMap]

/-- The patch of a remark on the node `n`. -/
def Remark.patch? (n : Node) : Remark → Option Patch
  | repair _ fixed => some ⟨n, fixed⟩
  | _ => none

/-- A remark suggests its own patch, for the location of the node. -/
theorem Remark.suggestionsOf_findings {c : Collector} {category : Category}
    (h : c.isEnabled category = true) (remark : Remark) (p : Path) :
    suggestionsOf (c.diagnosed (remark.reaction p c category).findings)
      = (remark.patch? p.node).toList.map fun patch => (p.location, patch) := by
  cases remark with
  | nothing => rfl
  | report message =>
    simp [suggestionsOf, Collector.diagnosed, reaction, Reaction.report, h, patch?,
      Collector.diagnose, Diagnostic.ofFix]
  | repair message fixed =>
    simp [suggestionsOf, Collector.diagnosed, reaction, Reaction.repair, h, patch?,
      Collector.diagnose, Diagnostic.ofFix, Path.sourceLocation]
  | discard message =>
    simp [suggestionsOf, Collector.diagnosed, reaction, Reaction.discard, h, patch?,
      Collector.diagnose, Diagnostic.ofFix]

namespace Builtin

/-- Built-in rules that describe their fixes queue nothing. -/
theorem queuesNothing_describing : registry.describing.QueuesNothing := by
  intro r hr phase callback hcallback p c
  obtain ⟨r', hr', rfl⟩ := List.mem_map.mp hr
  rw [Rule.callback?_describing] at hcallback
  obtain ⟨callback', hcallback', rfl⟩ := Option.map_eq_some_iff.mp hcallback
  obtain ⟨remark, callback'', hcallback'', hremark⟩ := exists_remarks hr' hcallback'
  obtain rfl : callback' = callback'' := Option.some.inj (hcallback'.symm.trans hcallback'')
  have happlies : c.describing.applies r'.category = false := by
    simp [Collector.applies, Collector.describing]
  unfold Callback.describing
  rw [hremark]
  exact (Remark.isQuiet_reaction happlies _).1

/-- The only rule that can have a repair for a node, and the phase in which it has. -/
def repairer (n : Node) : String × Phase :=
  match n.payload with
  | .element tag _ _ =>
    if isVoidElement tag then (preferSelfClosing.name, .enter) else (addSelfClosing.name, .enter)
  | .typeParameter .. => (noUnknownConstraint.name, .enter)
  | _ => (noDuplicateMember.name, .exit)

/-- **A node is repaired by one rule at most.** The two rules for elements look at different tags,
    and the others at different kinds. -/
theorem Repairs.eq_repairer {n fixed : Node} {r : Rule} {phase : Phase}
    (h : Repairs n r phase fixed) (haccepts : r.accepts n.kind = true) :
    (r.name, phase) = repairer n := by
  cases h with
  | void hpayload htag => simp [repairer, hpayload, htag]
  | empty hpayload htag => simp [repairer, hpayload, htag]
  | constraint hpayload => simp [repairer, hpayload]
  | members =>
    -- The rule would say the same of any node with such children, but is asked about bodies only.
    obtain ⟨payload, span, cs⟩ := n
    have hkind : payload.kind = .interfaceBody := of_decide_eq_true haccepts
    cases payload with
    | interfaceBody => rfl
    | _ => cases hkind

section Invocation

variable {v : Visit} {r : Rule} {callback : Callback}

/-- What an invocation of a built-in rule suggests: the patch of a remark on the node. -/
theorem exists_suggestionsOf_added (hr : r ∈ rules) (hmade : v.MadeFor r callback) :
    ∃ remark, (r, v.phase, remark) ∈ assignments ∧
      suggestionsOf v.added = ((remark v.path.node).patch? v.path.node).toList.map
        fun patch => (v.path.location, patch) := by
  obtain ⟨remark, hmem, callback', hcallback', hremark⟩ :=
    exists_mem_assignments hr hmade.callback?
  obtain rfl : callback = callback' := Option.some.inj (hmade.callback?.symm.trans hcallback')
  refine ⟨remark, hmem, ?_⟩
  rw [hmade.added, hremark]
  exact Remark.suggestionsOf_findings hmade.enabled _ _

/-- One invocation suggests one patch at most. -/
theorem nodup_suggestionsOf_added (hr : r ∈ rules) (hmade : v.MadeFor r callback) :
    ((suggestionsOf v.added).map (·.1)).Nodup := by
  obtain ⟨remark, -, hsuggestions⟩ := exists_suggestionsOf_added hr hmade
  rw [hsuggestions]
  cases (remark v.path.node).patch? v.path.node with
  | none => exact List.nodup_nil
  | some patch => exact List.nodup_singleton _

/-- A patch is for the node that the rule was shown, which no other rule has a patch for. -/
theorem eq_of_mem_suggestionsOf_added (hr : r ∈ rules) (hmade : v.MadeFor r callback)
    {s : Location × Patch} (hs : s ∈ suggestionsOf v.added) :
    s.1 = v.path.location ∧ s.2.old = v.path.node ∧ (v.rule, v.phase) = repairer v.path.node := by
  obtain ⟨remark, hmem, hsuggestions⟩ := exists_suggestionsOf_added hr hmade
  rw [hsuggestions] at hs
  obtain ⟨patch, hpatch, rfl⟩ := List.mem_map.mp hs
  cases hsaid : remark v.path.node with
  | repair message fixed =>
    rw [hsaid] at hpatch
    obtain rfl := List.mem_singleton.mp hpatch
    rw [hmade.rule]
    exact ⟨rfl, rfl, (repairs_of_mem_assignments hmem hsaid).eq_repairer hmade.accepts⟩
  | _ =>
    rw [hsaid] at hpatch
    cases hpatch

end Invocation

end Builtin

/-! ### Patches that fit -/

section Fresh

variable {tree : Node} {ss : List (Location × Patch)}

/-- Patches at different locations are all queued, sorted by location. -/
theorem perm_suggestionQueue (hdistinct : (ss.map (·.1)).Nodup) :
    ((suggestionQueue ss).edits.map Edit.undated).Perm (ss.map Edit.ofSuggestion) := by
  have hlocations : ((ss.map Edit.ofSuggestion).map (·.location)).Nodup := by
    rw [List.map_map]
    exact hdistinct
  have hperm := EditQueue.perm_pushAll (q := EditQueue.empty) (fun _ _ => rfl) hlocations
  rw [List.map_map] at hperm
  rw [suggestionQueue_of_nodup hdistinct]
  exact hperm.trans (List.append_nil _ ▸ List.Perm.refl _)

/-- **Patches that fit the tree, at different locations.** None of them is stale, and those that are
    not below another one are made. -/
theorem applySuggestions_of_fresh (htree : tree.Addressable) (hdistinct : (ss.map (·.1)).Nodup)
    (hfresh : ∀ s ∈ ss, tree.get? s.1 = some s.2.old) :
    (applySuggestions tree ss).stale = [] ∧
      ∀ l, l ∈ (applySuggestions tree ss).applied ↔
        l ∈ ss.map (·.1) ∧ ∀ m ∈ ss.map (·.1), m.isStrictAncestorOf l = false := by
  have hqueue := perm_suggestionQueue hdistinct
  -- Patches replace, so none of them takes the root away.
  have hroot : ¬ (suggestionQueue ss).RemovesRoot tree := by
    rintro ⟨e, he, -, hremove⟩
    exact onlyReplaces_suggestionQueue ss e (EditQueue.get?_eq_some_iff.mp he).1 hremove
  have hedits : ∀ e ∈ (suggestionQueue ss).edits, tree.get? e.location = some e.found := by
    intro e he
    obtain ⟨s, hs, hsame⟩ := List.mem_map.mp
      (hqueue.mem_iff.mp (List.mem_map.mpr ⟨e, he, rfl⟩))
    have hlocation : s.1 = e.location := congrArg Edit.location hsame
    have hfound : s.2.old = e.found := congrArg Edit.found hsame
    rw [← hlocation, ← hfound]
    exact hfresh s hs
  -- The queue is sorted, but it holds the patches at the same locations.
  have hlocations : ∀ l, l ∈ (suggestionQueue ss).edits.map (·.location) ↔ l ∈ ss.map (·.1) := by
    intro l
    have hmem := (hqueue.map (·.location)).mem_iff (a := l)
    rw [List.map_map, List.map_map] at hmem
    exact hmem
  constructor
  · rw [List.eq_nil_iff_forall_not_mem]
    intro l hl
    obtain ⟨e, he, -, -, n, hn, hne⟩ := (mem_stale_applyEdits htree hroot l).mp hl
    obtain rfl : e.found = n := Option.some.inj ((hedits e he).symm.trans hn)
    rw [Node.beq_self] at hne
    cases hne
  · intro l
    unfold applySuggestions
    rw [mem_applied_applyEdits htree hroot, ← hlocations l, List.mem_map]
    constructor
    · rintro ⟨e, he, rfl, houter, -⟩
      refine ⟨⟨e, he, rfl⟩, fun m hm => ?_⟩
      obtain ⟨o, ho, rfl⟩ := List.mem_map.mp ((hlocations m).mpr hm)
      exact houter o ho
    · rintro ⟨⟨e, he, rfl⟩, houter⟩
      refine ⟨e, he, rfl, fun o ho => ?_, e.found, hedits e he, Node.beq_self _⟩
      exact houter _ ((hlocations _).mp (List.mem_map.mpr ⟨o, ho, rfl⟩))

end Fresh

/-- A run without fixes is one pass. -/
theorem Engine.exists_pass_of_describes {e : Engine} (he : e.config.applyFixes = false)
    {cancelled : Bool} {tree : Node} {outcome : Outcome}
    (h : (e.run cancelled tree).result = .ok outcome) :
    ∃ pass, (e.runPass cancelled tree).result = .ok pass ∧
      outcome.diagnostics = pass.diagnostics := by
  unfold run describe at h
  simp only [he, Bool.false_eq_true, if_false] at h
  split at h
  · cases h
  · cases hpass : (e.runPass cancelled tree).result with
    | error err =>
      rw [hpass] at h
      cases h
    | ok pass =>
      rw [hpass] at h
      obtain rfl := Except.ok.inj h
      exact ⟨pass, rfl, rfl⟩

namespace Builtin

section DryRun

variable {config : Config} (hconfig : config.applyFixes = false) {cancelled : Bool} {tree : Node}
  (htree : tree.Addressable) {pass : PassResult}
  (hpass : (Engine.runPass ⟨registry, config⟩ cancelled tree).result = .ok pass)

include hconfig htree hpass

/-- Every invocation of a dry run is made for a rule and shows the node of the tree, and no two are
    made for one rule at one location in one phase. -/
theorem visits_of_describes :
    (∀ v ∈ (Engine.runPass ⟨registry, config⟩ cancelled tree).visits.toList,
      (∃ r ∈ rules, ∃ callback, v.MadeFor r callback) ∧ v.Shows tree) ∧
    ((Engine.runPass ⟨registry, config⟩ cancelled tree).visits.toList.map fun v =>
      (v.rule, v.phase, v.path.location)).Nodup := by
  obtain ⟨⟨view, hview⟩, -⟩ := Engine.diagnostics_of_runPass_ok hpass
  have hmode : (Engine.collector ⟨registry, config⟩).mode = .describeOnly := by
    simp [Engine.collector, Engine.mode, Collector.new, hconfig]
  have hisAt :=
    forall₂_isAt_of_describes queuesNothing_describing (fun _ => rfl) hmode hview
  have hshows := ((List.forall₂_and_left _ _).mp
    (hisAt.imp fun v st hv => ⟨hv.shows (htree.number_lt hv.node), hv⟩)).1
  refine ⟨fun v hv => ⟨?_, hshows v hv⟩, ?_⟩
  · exact ((presentLaw htree).known_traverse config.maxDepth (Node.get?_root tree) _ v hv).made
  · exact nodup_asked_of_describes queuesNothing_describing (fun _ => rfl) hmode hview htree

/-- What a dry run suggests fits the tree, and no two patches are for one location. -/
theorem fits_of_describes :
    (∀ s ∈ suggestionsOf pass.diagnostics, tree.get? s.1 = some s.2.old) ∧
      ((suggestionsOf pass.diagnostics).map (·.1)).Nodup := by
  obtain ⟨hvisits, hnodup⟩ := visits_of_describes hconfig htree hpass
  rw [(Engine.diagnostics_of_runPass_ok hpass).2, suggestionsOf_flatMap]
  constructor
  · intro s hs
    obtain ⟨v, hv, hs⟩ := List.mem_flatMap.mp hs
    obtain ⟨⟨r, hr, callback, hmade⟩, hshows⟩ := hvisits v hv
    obtain ⟨hlocation, hold, -⟩ := eq_of_mem_suggestionsOf_added hr hmade hs
    rw [hlocation, hold]
    exact hshows.node
  · rw [List.map_flatMap, List.nodup_flatMap]
    constructor
    · intro v hv
      obtain ⟨⟨r, hr, callback, hmade⟩, -⟩ := hvisits v hv
      exact nodup_suggestionsOf_added hr hmade
    · refine (List.pairwise_map.mp hnodup).imp_of_mem fun {v w} hv hw hne l hl hl' => ?_
      obtain ⟨s, hs, rfl⟩ := List.mem_map.mp hl
      obtain ⟨s', hs', heq⟩ := List.mem_map.mp hl'
      obtain ⟨⟨r, hr, callback, hmade⟩, hshows⟩ := hvisits v hv
      obtain ⟨⟨r', hr', callback', hmade'⟩, hshows'⟩ := hvisits w hw
      obtain ⟨hlocation, -, hrepairer⟩ := eq_of_mem_suggestionsOf_added hr hmade hs
      obtain ⟨hlocation', -, hrepairer'⟩ := eq_of_mem_suggestionsOf_added hr' hmade' hs'
      -- Two patches for one location would be for one node, so by one rule in one phase.
      have hplace : v.path.location = w.path.location :=
        hlocation.symm.trans (heq.symm.trans hlocation')
      have hnode : v.path.node = w.path.node := by
        have hget := hshows.node
        rw [hplace, hshows'.node] at hget
        exact (Option.some.inj hget).symm
      rw [hnode, ← hrepairer'] at hrepairer
      obtain ⟨hrule, hphase⟩ := Prod.mk.inj hrepairer
      apply hne
      rw [hrule, hphase, hplace]

end DryRun

/-- **The suggestions of a dry run apply.** For all settings without fixes, and for every tree whose
    nodes can be addressed and on which a run with the built-in rules succeeds: each patch that it
    suggests is for the node of the tree at the location of its diagnostic, no two are for one
    location, and applying all of them finds none stale and makes exactly those that no other
    one is strictly above. -/
theorem run_suggestions_apply (config : Config) (hconfig : config.applyFixes = false)
    (cancelled : Bool) (tree : Node) (htree : tree.Addressable) (outcome : Outcome)
    (hrun : (Engine.run ⟨registry, config⟩ cancelled tree).result = .ok outcome) :
    let suggestions := suggestionsOf outcome.diagnostics
    (∀ s ∈ suggestions, tree.get? s.1 = some s.2.old) ∧
      (suggestions.map (·.1)).Nodup ∧
      (applySuggestions tree suggestions).stale = [] ∧
      ∀ l, l ∈ (applySuggestions tree suggestions).applied ↔
        l ∈ suggestions.map (·.1) ∧
          ∀ m ∈ suggestions.map (·.1), m.isStrictAncestorOf l = false := by
  obtain ⟨pass, hpass, hdiagnostics⟩ := Engine.exists_pass_of_describes hconfig hrun
  rw [hdiagnostics]
  obtain ⟨hfresh, hdistinct⟩ := fits_of_describes hconfig htree hpass
  exact ⟨hfresh, hdistinct, applySuggestions_of_fresh htree hdistinct hfresh⟩

/-- A page with an element that should be self-closing beside an interface, and another one between
    two properties of one name. -/
def interspersedPage : Node :=
  .ofPayload .document
    [.ofPayload (.element "br" [] false) [],
      .ofPayload (.interface "I")
        [.ofPayload .interfaceBody
          [.ofPayload (.propertySignature "a" false false none) [],
            .ofPayload (.element "p" [] false) [],
            .ofPayload (.propertySignature "a" false false none) []]]]

/-- Of the three patches, the one for the element among the properties loses to the one for the
    whole body, which comes after it. -/
theorem run_suggestions_apply_interspersedPage :
    interspersedPage.Addressable ∧
      ∃ outcome, (Engine.run ⟨registry, { applyFixes := false }⟩ false interspersedPage).result
          = .ok outcome ∧
        (suggestionsOf outcome.diagnostics).map (·.1) = [⟨[0]⟩, ⟨[1, 0, 1]⟩, ⟨[1, 0]⟩] ∧
        (applySuggestions interspersedPage (suggestionsOf outcome.diagnostics)).stale = [] ∧
        ∀ l, l ∈ (applySuggestions interspersedPage (suggestionsOf outcome.diagnostics)).applied ↔
          l = ⟨[0]⟩ ∨ l = ⟨[1, 0]⟩ := by
  have haddressable : interspersedPage.Addressable := by
    unfold Node.Addressable
    decide
  have hrun : ((Engine.run ⟨registry, { applyFixes := false }⟩ false
        interspersedPage).result.toOption.map fun outcome =>
          (suggestionsOf outcome.diagnostics).map (·.1))
      = some [⟨[0]⟩, ⟨[1, 0, 1]⟩, ⟨[1, 0]⟩] := by
    decide +kernel
  obtain ⟨outcome, houtcome, hlocations⟩ := exists_ok_of_map_toOption hrun
  obtain ⟨-, -, hstale, happlied⟩ := run_suggestions_apply { applyFixes := false } rfl false
    interspersedPage haddressable outcome houtcome
  refine ⟨haddressable, outcome, houtcome, hlocations, hstale, fun l => ?_⟩
  rw [happlied, hlocations]
  constructor
  · rintro ⟨hl, houter⟩
    simp only [List.mem_cons, List.not_mem_nil, or_false] at hl
    rcases hl with rfl | rfl | rfl
    · exact .inl rfl
    · exact absurd (houter ⟨[1, 0]⟩ (by decide)) (by decide)
    · exact .inr rfl
  · rintro (rfl | rfl)
    · decide
    · decide

end Builtin

end TreeLint
