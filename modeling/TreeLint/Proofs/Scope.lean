import Mathlib
import TreeLint.Proofs.Authorship
import TreeLint.Proofs.Collector

namespace TreeLint

/-!
# Which diagnostics are hidden

The suppressions in force at an invocation are the directives that the nodes on the way down to it
come under, no more and no fewer.

* `Scoped` says this for a way down: the stack grows by the directive of each step.
* `Emits` is what a part of a walk adds to the log and to the diagnostics. Every invocation is
  scoped, and what it adds is flagged accordingly. `scopeLaw` is the law of walks for it, and
  `emits_walk` what follows for the walk of any node from any state.
* `traverse_suppressed`: nothing is hidden without a directive, and no walk leaves a suppression
  behind.
* `traverse_directive`: a directive takes effect unless a later one takes its place.
  `traverse_drops_directive` is a directive that has no effect.
-/

/-! ### The way down -/

/-- The stack of suppressions on the way down from a node at `l₀`, below the steps `start`, where
    the stack is `stack₀`. -/
inductive Scoped (start : List Step) (l₀ : Location) (stack₀ : List Suppression) :
    List Step → Location → List Suppression → Prop where
  | here : Scoped start l₀ stack₀ start l₀ stack₀
  /-- A child adds the directive that it comes under among the children that are walked. -/
  | child {st : Step} {above : List Step} {stack : List Suppression} {j : Nat} {c : Node}
      (h : Scoped start l₀ stack₀ above st.location stack)
      (hc : st.graft.node.children[j]? = some c) :
      Scoped start l₀ stack₀ (st :: above) (st.location.child j)
        ((scopeAt st.graft.node.children j).toList ++ stack)

section WayDown

variable {start above : List Step} {l₀ l : Location} {stack₀ stack : List Suppression}

/-- Every suppression in force was so from the start, or is the directive of a node on the way. -/
theorem Scoped.exists_scopeAt (h : Scoped start l₀ stack₀ above l stack) {d : Suppression}
    (hd : d ∈ stack) :
    d ∈ stack₀ ∨ ∃ st ∈ above, ∃ j c, st.graft.node.children[j]? = some c ∧
      (st.location.child j).contains l = true ∧ scopeAt st.graft.node.children j = some d := by
  induction h with
  | here => exact .inl hd
  | @child st above stack j c h hc ih =>
    rcases List.mem_append.mp hd with hd | hd
    · refine .inr ⟨st, List.mem_cons_self, j, c, hc, Location.contains_self _, ?_⟩
      exact Option.mem_toList.mp hd
    · rcases ih hd with hd | ⟨st', hst', j', c', hc', hl, hscope⟩
      · exact .inl hd
      · exact .inr ⟨st', List.mem_cons_of_mem st hst', j', c', hc',
          Location.contains_trans hl (st.location.contains_child j), hscope⟩

/-- Every node above is one of the steps, and the directive of its child on the way is in force. -/
theorem Scoped.exists_step (h : Scoped [] Location.root [] above l stack) {m : Location}
    (hm : m.isStrictAncestorOf l = true) :
    ∃ st ∈ above, st.location = m ∧ ∃ j c, st.graft.node.children[j]? = some c ∧
      (m.child j).contains l = true ∧
      ∀ d, scopeAt st.graft.node.children j = some d → d ∈ stack := by
  induction h with
  | here => exact absurd hm (by simp)
  | @child st above stack j c h hc ih =>
    rcases Location.isStrictAncestorOf_or_of_contains
        (Location.contains_of_isStrictAncestorOf hm) (st.location.contains_child j) with
      rfl | hmst | hstm
    · refine ⟨st, List.mem_cons_self, rfl, j, c, hc, Location.contains_self _, fun d hd => ?_⟩
      exact List.mem_append_left _ (Option.mem_toList.mpr hd)
    · obtain ⟨st', hst', hl, j', c', hc', hj', hscope⟩ := ih hmst
      exact ⟨st', List.mem_cons_of_mem st hst', hl, j', c', hc',
        Location.contains_trans hj' (st.location.contains_child j),
        fun d hd => List.mem_append_right _ (hscope d hd)⟩
    · -- There is no room between a location and its child.
      have hlt := Location.length_lt_of_isStrictAncestorOf hm
      have hlt' := Location.length_lt_of_isStrictAncestorOf hstm
      simp only [Location.indices_child, List.length_append, List.length_singleton] at hlt
      omega

end WayDown

/-! ### What a walk adds -/

theorem suppressions_under (s : WalkState) (scope : Option Suppression) :
    (s.under scope).collector.suppressions = scope.toList ++ s.collector.suppressions := by
  cases scope with
  | none => rfl
  | some d => rfl

/-- The invocation is one at a node on the way down, and what it adds is flagged by the suppressions
    that are in force there. -/
structure Visit.Flags (start : List Step) (l₀ : Location) (stack₀ : List Suppression) (v : Visit) :
    Prop where
  onWay : Scoped start l₀ stack₀ v.path.above v.path.location v.collector.suppressions
  flag : ∀ d ∈ v.added, d.suppressed = v.collector.isSuppressed d.category

/-- What a part of a walk from `a` to `b` adds: the suppressions in force are as before, and the
    diagnostics are those before and then what the new invocations have added. -/
structure Emits (start : List Step) (l₀ : Location) (stack₀ : List Suppression) (a b : WalkState) :
    Prop where
  suppressions : b.collector.suppressions = a.collector.suppressions
  added : ∃ new : List Visit, b.log = a.log ++ new ∧
    b.collector.diagnostics = a.collector.diagnostics ++ new.flatMap Visit.added ∧
    ∀ v ∈ new, v.Flags start l₀ stack₀

/-- The entry of the log for a reaction. -/
def WalkState.visitOf (s : WalkState) (r : Rule) (phase : Phase) (p : Path) (reaction : Reaction) :
    Visit where
  rule := r.name
  phase := phase
  path := p
  collector := s.collector
  edits := s.edits
  added := s.collector.diagnosed reaction.findings

theorem log_react_eq (s : WalkState) (r : Rule) (phase : Phase) (p : Path) (reaction : Reaction) :
    (s.react r phase p reaction).log = s.log ++ [s.visitOf r phase p reaction] := by
  unfold WalkState.react WalkState.log WalkState.visitOf
  simp only [Array.toList_push, Collector.addAll_eq, List.drop_left]

/-- **Walks flag what they emit.** -/
theorem scopeLaw (registry : Registry) (start : List Step) (l₀ : Location)
    (stack₀ : List Suppression) :
    ScopedLaw registry (fun _ l above s => Scoped start l₀ stack₀ above l s.collector.suppressions)
      (Emits start l₀ stack₀) where
  refl s := ⟨rfl, [], by simp, by simp, by simp⟩
  trans := by
    rintro a b c ⟨hab, new, hlog, hdiagnostics, hflags⟩ ⟨hbc, new', hlog', hdiagnostics', hflags'⟩
    refine ⟨hbc.trans hab, new ++ new', ?_, ?_, ?_⟩
    · rw [hlog', hlog, List.append_assoc]
    · rw [hdiagnostics', hdiagnostics, List.flatMap_append, List.append_assoc]
    · intro v hv
      rcases List.mem_append.mp hv with hv | hv
      · exact hflags v hv
      · exact hflags' v hv
  stable := by
    intro found l above a b hC hR
    rw [hR.suppressions]
    exact hC
  react := by
    intro found l above s r phase callback _ _ hC graft
    refine ⟨?_, _, log_react_eq s r phase _ _, ?_, ?_⟩
    · rw [collector_react]
    · rw [collector_react, List.flatMap_singleton]
      rfl
    · intro v hv
      rw [List.mem_singleton.mp hv]
      exact ⟨hC, fun d hd => Collector.suppressed_of_mem_diagnosed hd⟩
  child := by
    intro found l above s hC entered _ i c hc s' hR
    rw [suppressions_under, hR.suppressions]
    exact .child hC hc
  leave := by
    rintro a b (- | d) ⟨hsuppressions, hadded⟩
    · exact ⟨hsuppressions, hadded⟩
    · exact ⟨congrArg List.tail hsuppressions, hadded⟩

/-- What the walk of a node adds, whatever the state before it and whatever its result. -/
theorem emits_walk (registry : Registry) (maxDepth budget : Nat) (g : Graft) (l : Location)
    (above : List Step) (s : WalkState) :
    Emits above l s.collector.suppressions s (walk registry maxDepth budget g l above s).2 :=
  (scopeLaw registry above l s.collector.suppressions).rel_walk maxDepth budget g .here

/-- The invocations of a pass that begins without suppressions and diagnostics. -/
theorem emits_traverse (registry : Registry) (maxDepth : Nat) (tree : Node) {c : Collector}
    (hc : c.suppressions = []) :
    let s := (traverse registry maxDepth tree c).2
    s.collector.diagnostics = c.diagnostics ++ s.visits.toList.flatMap Visit.added ∧
      ∀ v ∈ s.visits.toList, v.Flags [] Location.root [] := by
  intro s
  obtain ⟨-, new, hlog, hdiagnostics, hflags⟩ := emits_walk registry maxDepth (maxDepth + 1)
    (Graft.ofNode tree) Location.root [] (WalkState.start c)
  have hvisits : s.visits.toList = new := hlog
  rw [hvisits]
  refine ⟨hdiagnostics, fun v hv => ?_⟩
  have hflag := hflags v hv
  rw [show (WalkState.start c).collector.suppressions = [] from hc] at hflag
  exact hflag

/-! ### Nothing is hidden without a directive -/

/-- **Nothing is hidden without a directive, and no scope leaks.** Whatever the rules, the settings,
    the tree and the depth limit, and whether or not the walk succeeds: a diagnostic of a pass that
    is suppressed was added by an invocation below a child `j` of some node on its way, such that
    among the children that were walked there the comments directly before `j` hold a directive that
    covers the category, and `j` is no comment. The walk of any node, from any state, leaves
    the suppressions in force as they were and only appends to the diagnostics. -/
theorem traverse_suppressed (registry : Registry) (maxDepth : Nat) :
    (∀ (tree : Node) (mode : FixMode) (enabled : Option (List Category)),
      let s := (traverse registry maxDepth tree (Collector.new mode enabled)).2
      ∀ d ∈ s.collector.diagnostics, d.suppressed = true →
        ∃ v ∈ s.visits.toList, d ∈ v.added ∧
          ∃ st ∈ v.path.above, ∃ i j directive,
            (st.location.child j).contains v.path.location = true ∧
            DirectiveFor st.graft.node.children i j directive ∧
            directive.covers d.category = true) ∧
      ∀ (budget : Nat) (g : Graft) (l : Location) (above : List Step) (s : WalkState),
        let s' := (walk registry maxDepth budget g l above s).2
        s'.collector.suppressions = s.collector.suppressions ∧
          s.collector.diagnostics <+: s'.collector.diagnostics := by
  constructor
  · intro tree mode enabled s d hd hsuppressed
    obtain ⟨hdiagnostics, hflags⟩ :=
      emits_traverse registry maxDepth tree (c := Collector.new mode enabled) rfl
    have hd : d ∈ [] ++ s.visits.toList.flatMap Visit.added := hdiagnostics ▸ hd
    obtain ⟨v, hv, hadded⟩ := List.mem_flatMap.mp (List.nil_append _ ▸ hd)
    obtain ⟨hway, hflag⟩ := hflags v hv
    rw [hflag d hadded] at hsuppressed
    obtain ⟨directive, hin, hcovers⟩ := List.any_eq_true.mp hsuppressed
    -- The directive was in force at the start, which has none, or was opened on the way down.
    rcases hway.exists_scopeAt hin with hnone | ⟨st, hst, j, c, hc, hl, hscope⟩
    · exact absurd hnone List.not_mem_nil
    · obtain ⟨i, hfor, -⟩ := (scopeAt_eq_some_iff hc).mp hscope
      exact ⟨v, hv, hadded, st, hst, i, j, directive, hl, hfor, hcovers⟩
  · intro budget g l above s s'
    obtain ⟨hsuppressions, new, -, hdiagnostics, -⟩ :=
      emits_walk registry maxDepth budget g l above s
    exact ⟨hsuppressions, hdiagnostics ▸ List.prefix_append _ _⟩

/-- Report every text. -/
def reporting (category : Category) : Rule where
  name := category.id
  category := category
  accepts k := k = .text
  enter := some fun p _ => .report p category ⟨"text"⟩
  exit := none

/-- Rules for the sample: texts are reported twice, in two categories. -/
def reportRegistry : Registry where
  rules := [reporting ⟨"A"⟩, reporting ⟨"B"⟩]
  supports _ := true
  names_nodup := by decide

/-- A paragraph after two directives, one for each category. -/
def directedTree : Node :=
  .ofPayload .document
    [ .ofPayload (.comment "weft-ignore A") [], .ofPayload (.comment "weft-ignore B") [],
      .ofPayload (.element "p" [] false) [.ofPayload (.text "x") []] ]

/-- The state after a pass over the sample. -/
def directedPass : WalkState :=
  (traverse reportRegistry 8 directedTree (Collector.new .describeOnly none)).2

/-- Both directives are for the paragraph. -/
theorem directiveFor_directedTree :
    DirectiveFor directedTree.children 0 2 (.only [⟨"A"⟩]) ∧
      DirectiveFor directedTree.children 1 2 (.only [⟨"B"⟩]) := by
  refine ⟨⟨by decide, by rfl, ?_, _, rfl, rfl⟩, ⟨by decide, by rfl, ?_, _, rfl, rfl⟩⟩
  · intro k h h'
    obtain rfl : k = 1 := by omega
    rfl
  · intro k h h'
    omega

/-- Where the invocations of the pass took place, and what they added. -/
theorem directedPass_visits :
    directedPass.visits.toList.map (fun v =>
        (v.path.location, v.added.map fun d => (d.category, d.suppressed)))
      = [(⟨[2, 0]⟩, [(⟨"A"⟩, false)]), (⟨[2, 0]⟩, [(⟨"B"⟩, true)])] := by
  decide +kernel

/-- The diagnostics that the pass adds, with their flags. -/
theorem exists_directedVisit {category : Category} {flag : Bool}
    (h : (⟨[2, 0]⟩, [(category, flag)]) ∈ directedPass.visits.toList.map fun v =>
      (v.path.location, v.added.map fun d => (d.category, d.suppressed))) :
    ∃ v ∈ directedPass.visits.toList, v.path.location = ⟨[2, 0]⟩ ∧
      ∃ d ∈ v.added, d.category = category ∧ d.suppressed = flag := by
  obtain ⟨v, hv, hvalues⟩ := List.mem_map.mp h
  obtain ⟨hlocation, hadded⟩ := Prod.mk.inj hvalues
  obtain ⟨d, hd, hflag⟩ := List.map_eq_singleton_iff.mp hadded
  obtain ⟨hcategory, hsuppressed⟩ := Prod.mk.inj hflag
  exact ⟨v, hv, hlocation, d, by rw [hd]; exact List.mem_cons_self, hcategory, hsuppressed⟩

/-- In the sample the diagnostic of the second category is hidden, by the second directive. -/
theorem traverse_suppressed_sample :
    ∃ d ∈ directedPass.collector.diagnostics, d.category = ⟨"B"⟩ ∧ d.suppressed = true ∧
      ∃ v ∈ directedPass.visits.toList, d ∈ v.added ∧
        ∃ st ∈ v.path.above, ∃ i j directive,
          (st.location.child j).contains v.path.location = true ∧
          DirectiveFor st.graft.node.children i j directive ∧
          directive.covers d.category = true := by
  obtain ⟨v, hv, -, d, hd, hcategory, hflag⟩ :=
    exists_directedVisit (directedPass_visits ▸ List.mem_cons_of_mem _ List.mem_cons_self)
  have hdiagnostics := (emits_traverse reportRegistry 8 directedTree
    (c := Collector.new .describeOnly none) rfl).1
  have hmem : d ∈ directedPass.collector.diagnostics := by
    unfold directedPass at hv ⊢
    rw [hdiagnostics]
    exact List.mem_append_right _ (List.mem_flatMap.mpr ⟨v, hv, hd⟩)
  exact ⟨d, hmem, hcategory, hflag,
    (traverse_suppressed reportRegistry 8).1 directedTree .describeOnly none d hmem hflag⟩

/-! ### Directives take effect -/

/-- No callback of the registry queues an edit. -/
def Registry.QueuesNothing (registry : Registry) : Prop :=
  ∀ r ∈ registry.rules, ∀ phase callback, r.callback? phase = some callback →
    ∀ p c, (callback p c).requests p = []

/-- The steps show the nodes of the tree. -/
def StepsOf (tree : Node) (above : List Step) : Prop :=
  ∀ st ∈ above, tree.get? st.location = some st.graft.node

/-- Where nothing is queued, the walk is over the tree itself. -/
theorem quietLaw {registry : Registry} (hquiet : registry.QueuesNothing) {tree : Node}
    (htree : tree.Addressable) :
    WalkLaw registry
      (fun found l above s => tree.get? l = some found ∧ StepsOf tree above ∧
        s.edits = EditQueue.empty)
      (fun a b => b.edits = a.edits ∧
        ((∀ v ∈ a.log, StepsOf tree v.path.above) → ∀ v ∈ b.log, StepsOf tree v.path.above)) where
  refl _ := ⟨rfl, fun h => h⟩
  trans hab hbc := ⟨hbc.1.trans hab.1, fun h => hbc.2 (hab.2 h)⟩
  stable hC hR := ⟨hC.1, hC.2.1, hR.1.trans hC.2.2⟩
  react := by
    intro found l above s r phase callback hr hcallback hC graft
    constructor
    · show List.foldl _ s.edits ((callback _ s.collector).requests _) = s.edits
      rw [hquiet r hr phase callback hcallback]
      rfl
    · intro hlog v hv
      rw [log_react_eq] at hv
      rcases List.mem_append.mp hv with hv | hv
      · exact hlog v hv
      · rw [List.mem_singleton.mp hv]
        exact hC.2.1
  child := by
    rintro found l above s ⟨hget, habove, hedits⟩ entered (hnode | hedit) i c hc
    · rw [hnode] at hc
      have hlt := (List.getElem?_eq_some_iff.mp hc).1
      have hle := (htree.of_mem (Node.mem_parts_of_get? hget)).children_length
      refine ⟨Node.get?_child_of_get? (by omega) hget hc, ?_, hedits⟩
      intro st hst
      rcases List.mem_cons.mp hst with rfl | hst
      · show tree.get? l = some entered.node
        rw [hnode]
        exact hget
      · exact habove st hst
    -- Nothing is queued, so no edit has put another node in place.
    · rw [hedits] at hedit
      exact absurd hedit Bool.false_ne_true
  suppress hC _ := hC
  lift hR := hR

/-- **Directives take effect.** For every tree whose nodes can be addressed, all settings and depth
    limits, and rules that queue no edits: among the children of any node of the tree, let the child
    at index `i` be a comment that holds a directive, let the child at index `j` be the next one
    that is no comment, and let no comment between them hold a directive. Then all that callbacks
    add at the child at index `j` and below it is suppressed, if the directive covers its
    category. -/
theorem traverse_directive (registry : Registry) (hquiet : registry.QueuesNothing) (maxDepth : Nat)
    (tree : Node) (htree : tree.Addressable) (mode : FixMode) (enabled : Option (List Category))
    (l : Location) (parent : Node) (hparent : tree.get? l = some parent) (i j : Nat)
    (directive : Suppression) (hfor : DirectiveFor parent.children i j directive)
    (hlast : ∀ k, i < k → k < j → parent.children[k]?.bind Node.directive? = none) :
    ∀ v ∈ (traverse registry maxDepth tree (Collector.new mode enabled)).2.visits.toList,
      (l.child j).contains v.path.location = true →
        ∀ d ∈ v.added, directive.covers d.category = true → d.suppressed = true := by
  intro v hv hbelow d hd hcovers
  obtain ⟨hway, hflag⟩ := (emits_traverse registry maxDepth tree
    (c := Collector.new mode enabled) rfl).2 v hv
  have hsteps : StepsOf tree v.path.above :=
    ((quietLaw hquiet htree).rel_walk maxDepth (maxDepth + 1) (Graft.ofNode tree)
      ⟨Node.get?_root tree, fun _ h => absurd h List.not_mem_nil, rfl⟩).2
      (fun _ h => absurd h List.not_mem_nil) v hv
  obtain ⟨st, hst, hl, j', c', hc', hbelow', hscope⟩ :=
    hway.exists_step (Location.isStrictAncestorOf_of_child_contains hbelow)
  -- The step at `l` shows the node of the tree, and the way goes on through the child `j` of it.
  have hshows := hsteps st hst
  rw [hl, hparent, Option.some.injEq] at hshows
  rw [← hshows] at hc' hscope
  have hle := (htree.of_mem (Node.mem_parts_of_get? hparent)).children_length
  have hlt' := (List.getElem?_eq_some_iff.mp hc').1
  obtain ⟨c, hc, -⟩ := hfor.target
  have hlt := (List.getElem?_eq_some_iff.mp hc).1
  obtain rfl : j' = j := Location.child_contains_inj (by omega) (by omega) hbelow' hbelow
  have hin := hscope directive ((scopeAt_eq_some_iff hc).mpr ⟨i, hfor, hlast⟩)
  rw [hflag d hd]
  exact List.any_eq_true.mpr ⟨directive, hin, hcovers⟩

theorem queuesNothing_reportRegistry : reportRegistry.QueuesNothing := by
  intro r hr phase callback hcallback p c
  simp only [reportRegistry, List.mem_cons, List.not_mem_nil, or_false] at hr
  rcases hr with rfl | rfl
  · cases phase <;> cases hcallback
    rfl
  · cases phase <;> cases hcallback
    rfl

/-- In the sample the second directive takes effect. -/
theorem traverse_directive_sample :
    reportRegistry.QueuesNothing ∧ directedTree.Addressable ∧
      DirectiveFor directedTree.children 1 2 (.only [⟨"B"⟩]) ∧
      ∃ v ∈ directedPass.visits.toList, (Location.root.child 2).contains v.path.location = true ∧
        ∃ d ∈ v.added, d.category = ⟨"B"⟩ ∧ d.suppressed = true := by
  have haddressable : directedTree.Addressable := by
    unfold Node.Addressable
    decide
  obtain ⟨v, hv, hlocation, d, hd, hcategory, -⟩ :=
    exists_directedVisit (directedPass_visits ▸ List.mem_cons_of_mem _ List.mem_cons_self)
  have hbelow : (Location.root.child 2).contains v.path.location = true := by
    rw [hlocation]
    decide
  refine ⟨queuesNothing_reportRegistry, haddressable, directiveFor_directedTree.2, v, hv, hbelow,
    d, hd, hcategory, ?_⟩
  exact traverse_directive reportRegistry queuesNothing_reportRegistry 8 directedTree haddressable
    .describeOnly none Location.root directedTree (Node.get?_root _) 1 2 _
    directiveFor_directedTree.2 (fun k _ _ => by omega) v hv hbelow d hd (by rw [hcategory]; rfl)

/-- **Not every directive takes effect.** In the sample the first directive is for the paragraph as
    well, and what it covers is not suppressed: the second one has taken its place. -/
theorem traverse_drops_directive :
    reportRegistry.QueuesNothing ∧
      ∃ directive, DirectiveFor directedTree.children 0 2 directive ∧
        ∃ v ∈ directedPass.visits.toList, (Location.root.child 2).contains v.path.location = true ∧
          ∃ d ∈ v.added, directive.covers d.category = true ∧ d.suppressed = false := by
  obtain ⟨v, hv, hlocation, d, hd, hcategory, hflag⟩ :=
    exists_directedVisit (directedPass_visits ▸ List.mem_cons_self)
  refine ⟨queuesNothing_reportRegistry, _, directiveFor_directedTree.1, v, hv, ?_, d, hd, ?_, hflag⟩
  · rw [hlocation]
    decide
  · rw [hcategory]
    rfl

end TreeLint
