import Mathlib
import TreeLint.Proofs.BuiltinRules
import TreeLint.Proofs.Collector

namespace TreeLint

/-!
# Rules that make one remark on a node

The built-in rules look at nothing but the node itself, and have at most one thing to say about it.
What they say is a `Remark`; the settings only decide whether its fix is made.

* `Remark.reaction` is what the engine is asked for. It depends on what was collected only through
  `Collector.applies`, and while fixes are not applied it asks for no edits
  (`Remark.isQuiet_reaction`).
* `Remark.mem_outcomes`: a rule with a remark leaves the node, or what the remark proposes.
* `Rule.Remarks` says that a rule is of this kind, and `Builtin.exists_remarks` that all built-in
  ones are. `Builtin.assignments` lists which of them says what, and when; `Builtin.remarks` is what
  they have to say.
-/

/-- What a rule has to say about a node. -/
inductive Remark where
  | nothing
  /-- Something is wrong, and there is no fix. -/
  | report (message : MessageId)
  /-- Another node should be in the place of the node. -/
  | repair (message : MessageId) (fixed : Node)
  /-- The node should go. -/
  | discard (message : MessageId)

namespace Remark

/-- The reaction of a callback that makes the remark on the node of `p`. -/
def reaction (p : Path) (c : Collector) (category : Category) : Remark → Reaction
  | nothing => .nothing
  | report message => .report p category message
  | repair message fixed => .repair p c category message fixed
  | discard message => .discard p c category message

/-- What is known of the remark without the node that it proposes: the message, and whether there is
    a fix. -/
def shape : Remark → Option (MessageId × FixStatus)
  | nothing => none
  | report message => some (message, .none)
  | repair message _ => some (message, .available)
  | discard message => some (message, .available)

/-- What can be left of the node `present`. -/
def outcomes (present : Graft) : Remark → List (Option Graft)
  | nothing => [some present]
  | report _ => [some present]
  | repair _ fixed => [some present, some (Graft.ofNode fixed)]
  | discard _ => [some present, none]

/-- The node may always be left as it is: fixes may be off. -/
theorem present_mem_outcomes (remark : Remark) (present : Graft) :
    some present ∈ remark.outcomes present := by
  cases remark <;> exact List.mem_cons_self

section Reactions

variable {p : Path} {c : Collector} {category : Category}

/-- Of the collector a reaction reads no more than whether fixes are made. -/
theorem reaction_congr {c' : Collector} (h : c.applies category = c'.applies category)
    (remark : Remark) : remark.reaction p c category = remark.reaction p c' category := by
  cases remark with
  | nothing => rfl
  | report message => rfl
  | repair message fixed =>
    show Reaction.repair p c category message fixed = Reaction.repair p c' category message fixed
    simp only [Reaction.repair, Collector.choose, h]
  | discard message =>
    show Reaction.discard p c category message = Reaction.discard p c' category message
    simp only [Reaction.discard, h]

/-- As long as fixes are not applied, a remark asks for no edits. -/
theorem isQuiet_reaction (h : c.applies category = false) (remark : Remark) :
    (remark.reaction p c category).IsQuiet p := by
  cases remark with
  | nothing => exact Reaction.isQuiet_nothing p
  | report message => exact Reaction.isQuiet_report p category message
  | repair message fixed =>
    refine ⟨?_, rfl⟩
    simp [reaction, Reaction.repair, Reaction.requests, Transform.after, Graft.ofNode,
      Collector.choose, h]
  | discard message =>
    refine ⟨?_, rfl⟩
    simp [reaction, Reaction.discard, Reaction.requests, h]

/-- A repair with an equal node is none. -/
theorem isQuiet_reaction_repair {message : MessageId} {fixed : Node}
    (h : (fixed == p.node) = true) : ((repair message fixed).reaction p c category).IsQuiet p := by
  refine ⟨?_, rfl⟩
  by_cases happlies : c.applies category = true
  · simp [reaction, Reaction.repair, Reaction.requests, Transform.after, Graft.ofNode,
      Collector.choose, happlies, h]
  · exact (isQuiet_reaction (Bool.eq_false_iff.mpr happlies) _).1

end Reactions

/-- **What a remark leads to.** The node stays, or becomes what the remark proposes. -/
theorem mem_outcomes {r : Rule} {phase : Phase} {p : Path} {s : WalkState} {callback : Callback}
    (hcallback : r.callback? phase = some callback) {remark : Remark}
    (hremark : callback p s.collector = remark.reaction p s.collector r.category) :
    (runRule r phase p s).1 ∈ remark.outcomes p.here.graft := by
  have hstays : (callback p s.collector).IsQuiet p →
      (runRule r phase p s).1 ∈ remark.outcomes p.here.graft := by
    intro hquiet
    rw [(ran_quiet hcallback hquiet).result]
    exact remark.present_mem_outcomes p.here.graft
  -- A quiet reaction leaves the node. The other two need fixes to be on.
  by_cases hkind : r.accepts p.kind = true
  · by_cases happlies : s.collector.applies r.category = true
    · cases remark with
      | nothing => exact hstays (hremark ▸ Reaction.isQuiet_nothing p)
      | report message => exact hstays (hremark ▸ Reaction.isQuiet_report p r.category message)
      | repair message fixed =>
        by_cases hsame : (fixed == p.node) = true
        · exact hstays (hremark ▸ isQuiet_reaction_repair hsame)
        · rw [(ran_repair hcallback hkind happlies hremark (Bool.eq_false_iff.mpr hsame)).result]
          exact List.mem_cons_of_mem _ List.mem_cons_self
      | discard message =>
        rw [(ran_discard hcallback hkind happlies hremark).result]
        exact List.mem_cons_of_mem _ List.mem_cons_self
    · exact hstays (hremark ▸ isQuiet_reaction (Bool.eq_false_iff.mpr happlies) remark)
  · -- The rule does not look at nodes of this kind.
    have hskipped : runRule r phase p s = (some p.here.graft, s) := by
      unfold runRule
      simp only [hcallback, hkind, Bool.false_and, Bool.false_eq_true, if_false]
    rw [hskipped]
    exact remark.present_mem_outcomes p.here.graft

end Remark

/-- In this phase, all that the rule does is to make the remark that `remark` gives for a node. -/
def Rule.Remarks (r : Rule) (phase : Phase) (remark : Node → Remark) : Prop :=
  ∃ callback, r.callback? phase = some callback ∧
    ∀ p c, callback p c = (remark p.node).reaction p c r.category

end TreeLint

namespace TreeLint.Builtin

/-! ### The remarks of the built-in rules -/

/-- The remark on an element without children that is not self-closing. -/
def closingRemark (test : String → Bool) (message : MessageId) (n : Node) : Remark :=
  match openEmptyElement? n with
  | some (tag, attributes) =>
    if test tag then .repair message (n.withPayload (.element tag attributes true)) else .nothing
  | none => .nothing

/-- Both rules that close elements react to the same remark, with their own tests and messages. -/
theorem closeElement_eq_reaction (test : String → Bool) (category : Category)
    (message : MessageId) (p : Path) (c : Collector) :
    closeElement test category message p c
      = (closingRemark test message p.node).reaction p c category := by
  unfold closingRemark
  cases hopen : openEmptyElement? p.node with
  | none => exact closeElement_of_none c hopen
  | some element =>
    rw [closeElement_of_some c hopen]
    simp only
    split
    · rfl
    · rfl

theorem remarks_preferSelfClosing :
    preferSelfClosing.Remarks .enter
      (closingRemark isVoidElement ⟨"html.voidElementNotSelfClosing"⟩) :=
  ⟨_, rfl, closeElement_eq_reaction _ _ _⟩

theorem remarks_addSelfClosing :
    addSelfClosing.Remarks .enter
      (closingRemark (fun tag => !isVoidElement tag) ⟨"ast.emptyElementNotSelfClosing"⟩) :=
  ⟨_, rfl, closeElement_eq_reaction _ _ _⟩

/-- The remark on an empty comment. -/
def commentRemark (n : Node) : Remark :=
  if isEmptyComment n then .discard ⟨"html.emptyComment"⟩ else .nothing

/-- The rule reacts to empty comments. -/
theorem remarks_noEmptyComment : noEmptyComment.Remarks .enter commentRemark := by
  refine ⟨_, rfl, fun p c => ?_⟩
  unfold commentRemark
  split
  · rfl
  · rfl

/-- The remark on a constraint that every type meets. -/
def constraintRemark (n : Node) : Remark :=
  match n.payload with
  | .typeParameter name (some constraint) default =>
    if isTopType constraint then
      .repair ⟨"ts.unnecessaryConstraint"⟩ (n.withPayload (.typeParameter name none default))
    else .nothing
  | _ => .nothing

/-- The rule reacts to constraints that every type meets. -/
theorem remarks_noUnknownConstraint : noUnknownConstraint.Remarks .enter constraintRemark := by
  refine ⟨_, rfl, fun p c => ?_⟩
  unfold constraintRemark
  cases hpayload : p.node.payload with
  | typeParameter name constraint default =>
    cases constraint with
    | none => rfl
    | some constraint =>
      simp only
      split
      · rfl
      · rfl
  | _ => rfl

/-- The remark on an interface without members. -/
def interfaceRemark (n : Node) : Remark :=
  if hasEmptyBody n then .report ⟨"ts.emptyInterface"⟩ else .nothing

/-- The rule reacts to interfaces without members. -/
theorem remarks_noEmptyInterface : noEmptyInterface.Remarks .enter interfaceRemark := by
  refine ⟨_, rfl, fun p c => ?_⟩
  unfold interfaceRemark
  split
  · rfl
  · rfl

/-- The remark on a body with members of one name. -/
def memberRemark (n : Node) : Remark :=
  if (distinctMembers [] n.children).length = n.children.length then .nothing
  else .repair ⟨"ts.duplicateMember"⟩ (n.withChildren (distinctMembers [] n.children))

/-- The rule reacts to properties of the same name, after the members have been walked. -/
theorem remarks_noDuplicateMember : noDuplicateMember.Remarks .exit memberRemark := by
  refine ⟨_, rfl, fun p c => ?_⟩
  unfold memberRemark
  simp only
  split
  · rfl
  · rfl

/-- Which rule makes which remark, and when. -/
def assignments : List (Rule × Phase × (Node → Remark)) :=
  [(preferSelfClosing, .enter, closingRemark isVoidElement ⟨"html.voidElementNotSelfClosing"⟩),
    (addSelfClosing, .enter,
      closingRemark (fun tag => !isVoidElement tag) ⟨"ast.emptyElementNotSelfClosing"⟩),
    (noEmptyComment, .enter, commentRemark),
    (noUnknownConstraint, .enter, constraintRemark),
    (noEmptyInterface, .enter, interfaceRemark),
    (noDuplicateMember, .exit, memberRemark)]

/-- All the remarks. -/
def remarks : List (Node → Remark) := assignments.map (·.2.2)

/-- What a built-in rule does in a phase is to make the remark that it is assigned. -/
theorem exists_mem_assignments {r : Rule} (hr : r ∈ rules) {phase : Phase} {callback : Callback}
    (hcallback : r.callback? phase = some callback) :
    ∃ remark, (r, phase, remark) ∈ assignments ∧ r.Remarks phase remark := by
  simp only [rules, List.mem_cons, List.not_mem_nil, or_false] at hr
  rcases hr with rfl | rfl | rfl | rfl | rfl | rfl
  · cases phase with
    | enter => exact ⟨_, by simp [assignments], remarks_preferSelfClosing⟩
    | exit => cases hcallback
  · cases phase with
    | enter => exact ⟨_, by simp [assignments], remarks_addSelfClosing⟩
    | exit => cases hcallback
  · cases phase with
    | enter => exact ⟨_, by simp [assignments], remarks_noEmptyComment⟩
    | exit => cases hcallback
  · cases phase with
    | enter => exact ⟨_, by simp [assignments], remarks_noUnknownConstraint⟩
    | exit => cases hcallback
  · cases phase with
    | enter => exact ⟨_, by simp [assignments], remarks_noEmptyInterface⟩
    | exit => cases hcallback
  · cases phase with
    | enter => cases hcallback
    | exit => exact ⟨_, by simp [assignments], remarks_noDuplicateMember⟩

/-- What a built-in rule does is to make one of these remarks on nodes. -/
theorem exists_mem_remarks {r : Rule} (hr : r ∈ rules) {phase : Phase} {callback : Callback}
    (hcallback : r.callback? phase = some callback) :
    ∃ remark ∈ remarks, r.Remarks phase remark := by
  obtain ⟨remark, hmem, hremarks⟩ := exists_mem_assignments hr hcallback
  exact ⟨remark, List.mem_map.mpr ⟨_, hmem, rfl⟩, hremarks⟩

/-- **All that a built-in rule does is to make remarks on nodes.** -/
theorem exists_remarks {r : Rule} (hr : r ∈ rules) {phase : Phase} {callback : Callback}
    (hcallback : r.callback? phase = some callback) : ∃ remark, r.Remarks phase remark := by
  obtain ⟨remark, -, hremarks⟩ := exists_mem_remarks hr hcallback
  exact ⟨remark, hremarks⟩

end TreeLint.Builtin
