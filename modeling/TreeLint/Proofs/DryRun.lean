import Mathlib
import TreeLint.Proofs.BuiltinPass
import TreeLint.Proofs.FixLoop
import TreeLint.Proofs.Lockstep
import TreeLint.Proofs.Remark

namespace TreeLint

/-!
# A dry run tells what the first fixing pass reports

With the built-in rules, a pass that only describes fixes reports what a pass that makes them
reports, although the latter sees nodes that it has changed already.

* `Diagnostic.outline` is what is compared: all of a diagnostic but the replacement it proposes.
* `Foretells` relates the states of the two walks, and `Foretold` what asking rules comes to in
  them. `foretold_runRule`: the same remark up to its proposal keeps the states related.
* `Builtin.foretold_enter` and `Builtin.foretold_exit` are about the rules for one node. Duplicate
  members are looked for among members that were changed already; that their names were not is what
  `Retains` is for.
* `Builtin.coupled_walk` is the induction over the tree and `Builtin.dry_run_foretells` the result.
-/

/-! ### What is compared -/

/-- The diagnostic without the replacement that it proposes. Its category, place, message, flag and
    whether it comes with a fix stay. -/
def Diagnostic.outline (d : Diagnostic) : Diagnostic := { d with patch := none }

/-- The outline of the diagnostic of a finding, if nothing is suppressed. -/
def Finding.outline (f : Finding) : Diagnostic :=
  (Diagnostic.ofFix f.category f.location f.message f.fix).outline

/-- The outline of a finding has its category. -/
theorem Finding.category_outline (f : Finding) : f.outline.category = f.category := by
  unfold outline
  cases f.fix <;> rfl

/-- The outlines of what is collected depend on the outlines of the findings. -/
theorem Collector.map_outline_diagnosed (c : Collector) (fs : List Finding) :
    (c.diagnosed fs).map Diagnostic.outline
      = ((fs.map Finding.outline).filter fun d => c.isEnabled d.category).map
          fun d => { d with suppressed := c.isSuppressed d.category } := by
  have houtline : ∀ f : Finding, (c.diagnose f).outline
      = { f.outline with suppressed := c.isSuppressed f.outline.category } := by
    intro f
    rw [Finding.category_outline]
    rfl
  unfold diagnosed
  rw [List.filter_map, List.map_map, List.map_map]
  simp only [Function.comp_def, houtline, Finding.category_outline]

/-- In outline the findings of a remark do not depend on whether fixes are made: the node that is
    put in place is left out. -/
theorem Remark.map_outline_findings (remark : Remark) (p : Path) (c : Collector)
    (category : Category) :
    (remark.reaction p c category).findings.map Finding.outline
      = remark.shape.toList.map fun m => ⟨category, p.sourceLocation, m.1, none, false, m.2⟩ := by
  cases remark <;> rfl

/-- A walk that describes fixes is in a state that foretells the state of a walk that makes them. -/
structure Foretells (s t : WalkState) : Prop where
  describes : s.collector.mode = .describeOnly
  applies : t.collector.mode = .applyFixes
  enabled : s.collector.enabled = t.collector.enabled
  suppressions : s.collector.suppressions = t.collector.suppressions
  diagnostics : s.collector.diagnostics.map Diagnostic.outline
    = t.collector.diagnostics.map Diagnostic.outline
  edits : s.edits = EditQueue.empty

namespace Foretells

variable {s t : WalkState}

/-- The same categories are enabled. -/
theorem isEnabled (h : Foretells s t) (category : Category) :
    s.collector.isEnabled category = t.collector.isEnabled category := by
  unfold Collector.isEnabled
  rw [h.enabled]

/-- The walk that describes makes no fixes. -/
theorem applies_eq_false (h : Foretells s t) (category : Category) :
    s.collector.applies category = false := by
  unfold Collector.applies
  rw [h.describes]
  simp

/-- Directives open and close scopes in both walks alike. -/
theorem scopeClosed : ScopeClosed Foretells where
  under h scope := by
    cases scope with
    | none => exact h
    | some suppression =>
      exact ⟨h.describes, h.applies, h.enabled, congrArg (suppression :: ·) h.suppressions,
        h.diagnostics, h.edits⟩
  leave h scope := by
    cases scope with
    | none => exact h
    | some suppression =>
      exact ⟨h.describes, h.applies, h.enabled, congrArg List.tail h.suppressions,
        h.diagnostics, h.edits⟩

/-- Reactions with the same findings in outline keep the states related, if the first one asks for
    no edits. -/
theorem react (h : Foretells s t) (r : Rule) (phase : Phase) (p q : Path)
    {reaction reaction' : Reaction} (hquiet : reaction.IsQuiet p)
    (hfindings : reaction.findings.map Finding.outline
      = reaction'.findings.map Finding.outline) :
    Foretells (s.react r phase p reaction) (t.react r phase q reaction') := by
  constructor
  · rw [collector_react]
    exact h.describes
  · rw [collector_react]
    exact h.applies
  · rw [collector_react, collector_react]
    exact h.enabled
  · rw [collector_react, collector_react]
    exact h.suppressions
  · rw [collector_react, collector_react]
    simp only [List.map_append, Collector.map_outline_diagnosed, h.diagnostics, hfindings,
      Collector.isEnabled, Collector.isSuppressed, h.enabled, h.suppressions]
  · show (reaction.requests p).foldl _ s.edits = EditQueue.empty
    rw [hquiet.1]
    exact h.edits

end Foretells

/-! ### Asking rules -/

/-- The outcome of asking rules in the two walks: the one that describes keeps the node `present`,
    and what the other one leaves is as `Left` says. -/
structure Foretold (present : Graft) (Left : Option Graft → Prop)
    (out out' : Option Graft × WalkState) : Prop where
  stays : out.1 = some present
  left : Left out'.1
  states : Foretells out.2 out'.2

/-- The outcome as a pair, to rewrite with. -/
theorem Foretold.exists_states {present : Graft} {Left : Option Graft → Prop}
    {out out' : Option Graft × WalkState} (h : Foretold present Left out out') :
    ∃ s t g, out = (some present, s) ∧ out' = (g, t) ∧ Left g ∧ Foretells s t :=
  ⟨out.2, out'.2, out'.1, Prod.ext h.stays rfl, rfl, h.left, h.states⟩

section Rules

variable {r : Rule} {phase : Phase} {p q : Path} {s t : WalkState}

/-- **One rule.** It may see different nodes in the two walks, as long as its remarks on them are of
    one shape. -/
theorem foretold_runRule {remark : Node → Remark} (hr : r.Remarks phase remark)
    (hshape : (remark p.node).shape = (remark q.node).shape) (hkind : p.kind = q.kind)
    (hlocation : p.sourceLocation = q.sourceLocation) (h : Foretells s t) :
    Foretold p.here.graft (· ∈ (remark q.node).outcomes q.here.graft) (runRule r phase p s)
      (runRule r phase q t) := by
  obtain ⟨callback, hcallback, hremark⟩ := hr
  -- As long as fixes are only described, the rule asks for nothing.
  have hquiet : (callback p s.collector).IsQuiet p := by
    rw [hremark]
    exact Remark.isQuiet_reaction (h.applies_eq_false r.category) _
  refine ⟨(ran_quiet hcallback hquiet).result, Remark.mem_outcomes hcallback (hremark q _), ?_⟩
  rw [state_runRule hcallback, state_runRule hcallback, hkind, h.isEnabled]
  split
  · refine h.react r phase p q hquiet ?_
    rw [hremark, hremark, Remark.map_outline_findings, Remark.map_outline_findings, hshape,
      hlocation]
  · exact h

/-- A rule and then others, which are asked about what it left. A rule that removes the node is the
    last one. -/
theorem foretold_cons {rules : List Rule} {Left Left' : Option Graft → Prop}
    (hfirst : Foretold p.here.graft Left (runRule r phase p s) (runRule r phase q t))
    (hremoved : Left none → rules = [] ∧ Left' none)
    (hrest : ∀ g, Left (some g) → ∀ s t, Foretells s t →
      Foretold p.here.graft Left' (runRules phase rules p s)
        (runRules phase rules { q with here := { q.here with graft := g } } t)) :
    Foretold p.here.graft Left' (runRules phase (r :: rules) p s)
      (runRules phase (r :: rules) q t) := by
  obtain ⟨hstays, hleft, hstates⟩ := hfirst
  rw [runRules, runRules]
  generalize runRule r phase p s = out at hstays hstates ⊢
  generalize runRule r phase q t = out' at hleft hstates ⊢
  obtain ⟨g, s'⟩ := out
  obtain ⟨g', t'⟩ := out'
  obtain rfl : g = some p.here.graft := hstays
  cases g' with
  | none =>
    obtain ⟨rfl, hleft'⟩ := hremoved hleft
    exact ⟨rfl, hleft', hstates⟩
  | some g' => exact hrest g' hleft s' t' hstates

/-- A rule alone. -/
theorem foretold_single {Left Left' : Option Graft → Prop}
    (h : Foretold p.here.graft Left (runRule r phase p s) (runRule r phase q t))
    (himp : ∀ g, Left g → Left' g) :
    Foretold p.here.graft Left' (runRules phase [r] p s) (runRules phase [r] q t) :=
  foretold_cons h (fun hnone => ⟨rfl, himp none hnone⟩)
    fun g hg _ _ hstates => ⟨rfl, himp (some g) hg, hstates⟩

end Rules

namespace Builtin

/-! ### The built-in rules at one node -/

/-- What no built-in rule changes about a node before its children are walked. -/
structure Retains (n m : Node) : Prop where
  kind : m.kind = n.kind
  span : m.span = n.span
  children : m.children = n.children
  propertyName : m.propertyName? = n.propertyName?

namespace Retains

theorem refl (n : Node) : Retains n n := ⟨rfl, rfl, rfl, rfl⟩

/-- What two rules in turn retain. -/
theorem trans {n m k : Node} (h : Retains n m) (h' : Retains m k) : Retains n k :=
  ⟨h'.kind.trans h.kind, h'.span.trans h.span, h'.children.trans h.children,
    h'.propertyName.trans h.propertyName⟩

end Retains

/-- What can be left of a node before its children are walked. -/
inductive Entered (n : Node) : Option Graft → Prop where
  | removed (h : isEmptyComment n = true) : Entered n none
  | kept {m : Node} (h : Retains n m) : Entered n (some (Graft.ofNode m))

/-- The rules that close elements look at elements that are open. -/
theorem payload_of_openEmptyElement? {n : Node} {tag : String} {attributes : List Attribute}
    (h : openEmptyElement? n = some (tag, attributes)) :
    n.payload = .element tag attributes false := by
  obtain ⟨payload, span, cs⟩ := n
  cases payload with
  | element tag' attributes' selfClosing =>
    cases selfClosing with
    | true => cases h
    | false =>
      cases cs with
      | cons c cs => cases h
      | nil =>
        cases h
        rfl
  | _ => cases h

/-- What can be left of an element. A rule for other tags has to say about it what it had to say
    before: nothing, if the element has been closed. -/
theorem left_of_closingRemark {test : String → Bool} {message : MessageId} {n : Node}
    {g : Option Graft} (hg : g ∈ (closingRemark test message n).outcomes (Graft.ofNode n)) :
    ∃ m, g = some (Graft.ofNode m) ∧ Retains n m ∧
      ∀ test' message', (∀ tag, test tag = true → test' tag = false) →
        (closingRemark test' message' n).shape = (closingRemark test' message' m).shape := by
  unfold closingRemark at hg
  cases hopen : openEmptyElement? n with
  | none =>
    simp only [hopen] at hg
    exact ⟨n, List.mem_singleton.mp hg, .refl n, fun _ _ _ => rfl⟩
  | some element =>
    obtain ⟨tag, attributes⟩ := element
    simp only [hopen] at hg
    split at hg
    · rename_i htest
      rcases List.mem_pair.mp hg with rfl | rfl
      · exact ⟨n, rfl, .refl n, fun _ _ _ => rfl⟩
      · obtain ⟨payload, span, cs⟩ := n
        obtain rfl : payload = .element tag attributes false := payload_of_openEmptyElement? hopen
        refine ⟨_, rfl, ⟨rfl, rfl, rfl, rfl⟩, fun test' message' htests => ?_⟩
        -- The other rule passes over the open element for its tag, and over the closed one anyway.
        have hnothing : closingRemark test' message' ⟨.element tag attributes false, span, cs⟩
            = .nothing := by
          unfold closingRemark
          rw [hopen]
          simp [htests tag htest]
        rw [hnothing]
        rfl
    · exact ⟨n, List.mem_singleton.mp hg, .refl n, fun _ _ _ => rfl⟩

/-- A comment is removed if it is empty. -/
theorem entered_of_commentRemark {n : Node} {g : Option Graft}
    (hg : g ∈ (commentRemark n).outcomes (Graft.ofNode n)) : Entered n g := by
  unfold commentRemark at hg
  split at hg
  · rename_i hcomment
    rcases List.mem_pair.mp hg with rfl | rfl
    · exact .kept (.refl n)
    · exact .removed hcomment
  · obtain rfl := List.mem_singleton.mp hg
    exact .kept (.refl n)

/-- A constraint is taken off in the payload only. -/
theorem entered_of_constraintRemark {n : Node} {g : Option Graft}
    (hg : g ∈ (constraintRemark n).outcomes (Graft.ofNode n)) : Entered n g := by
  unfold constraintRemark at hg
  split at hg
  · rename_i name constraint default hpayload
    split at hg
    · rcases List.mem_pair.mp hg with rfl | rfl
      · exact .kept (.refl n)
      · obtain ⟨payload, span, cs⟩ := n
        obtain rfl : payload = .typeParameter name (some constraint) default := hpayload
        exact .kept ⟨rfl, rfl, rfl, rfl⟩
    · obtain rfl := List.mem_singleton.mp hg
      exact .kept (.refl n)
  · obtain rfl := List.mem_singleton.mp hg
    exact .kept (.refl n)

/-- An empty interface is reported and stays. -/
theorem entered_of_interfaceRemark {n : Node} {g : Option Graft}
    (hg : g ∈ (interfaceRemark n).outcomes (Graft.ofNode n)) : Entered n g := by
  unfold interfaceRemark at hg
  split at hg
  · obtain rfl := List.mem_singleton.mp hg
    exact .kept (.refl n)
  · obtain rfl := List.mem_singleton.mp hg
    exact .kept (.refl n)

section Node

variable {n : Node} {l : Location} {above above' : List Step} {s t : WalkState}

/-- A rule reports the same place in both walks, for the span and the location of a node stay. -/
theorem sourceLocation_departure {left : Node} (h : left.span = n.span) :
    (departure n n l above).sourceLocation = (departure left n l above').sourceLocation :=
  congrArg (fun span => SourceLocation.mk span l) h.symm

/-- One rule that is asked about a node to which both walks have come. -/
theorem foretold_alone {r : Rule} {remark : Node → Remark} (hr : r.Remarks .enter remark)
    (hentered : ∀ g, g ∈ (remark n).outcomes (Graft.ofNode n) → Entered n g)
    (h : Foretells s t) :
    Foretold (Graft.ofNode n) (Entered n) (runRules .enter [r] (arrival n l above) s)
      (runRules .enter [r] (arrival n l above') t) :=
  foretold_single (foretold_runRule (p := arrival n l above) (q := arrival n l above') hr
    rfl rfl rfl h) hentered

/-- The two rules for elements in turn. -/
theorem foretold_elements (h : Foretells s t) :
    Foretold (Graft.ofNode n) (Entered n)
      (runRules .enter [preferSelfClosing, addSelfClosing] (arrival n l above) s)
      (runRules .enter [preferSelfClosing, addSelfClosing] (arrival n l above') t) := by
  refine foretold_cons (foretold_runRule (p := arrival n l above) (q := arrival n l above')
    remarks_preferSelfClosing rfl rfl rfl h) (fun hnone => ?_) fun g hg s t hstates => ?_
  · obtain ⟨m, hm, -⟩ := left_of_closingRemark hnone
    cases hm
  · -- The second rule sees the node `n` in one walk, and what the first rule left in the other one.
    obtain ⟨m, hg, hm, hshape⟩ := left_of_closingRemark hg
    obtain rfl : g = Graft.ofNode m := Option.some.inj hg
    refine foretold_single (foretold_runRule (p := arrival n l above)
      (q := departure m n l above') remarks_addSelfClosing
      (hshape _ _ fun tag htag => by simp [htag]) hm.kind.symm (sourceLocation_departure hm.span)
      hstates) fun g' hg' => ?_
    obtain ⟨k, rfl, hk, -⟩ := left_of_closingRemark hg'
    exact .kept (hm.trans hk)

/-- **Before the children.** The two walks come to the same node, and report the same about it. -/
theorem foretold_enter (h : Foretells s t) :
    Foretold (Graft.ofNode n) (Entered n)
      (runRules .enter (registry.lookup n.kind) (arrival n l above) s)
      (runRules .enter (registry.lookup n.kind) (arrival n l above') t) := by
  cases hkind : n.kind with
  | element => exact foretold_elements h
  | comment => exact foretold_alone remarks_noEmptyComment (fun _ => entered_of_commentRemark) h
  | typeParameter =>
    exact foretold_alone remarks_noUnknownConstraint (fun _ => entered_of_constraintRemark) h
  | interface =>
    exact foretold_alone remarks_noEmptyInterface (fun _ => entered_of_interfaceRemark) h
  -- The rule for bodies has no callback for this phase, and nobody looks at the other kinds.
  | _ => exact ⟨rfl, .kept (.refl n), h⟩

/-- Members have to go exactly if two of them have one name. -/
theorem length_distinctMembers_eq_iff (ms : List Node) :
    (distinctMembers [] ms).length = ms.length ↔ (ms.filterMap Node.propertyName?).Nodup := by
  have hapart : (ms.filterMap Node.propertyName?).Nodup ↔ ms.Pairwise NamedApart := by
    unfold List.Nodup
    rw [List.pairwise_filterMap]
    refine List.Pairwise.iff fun m x => ?_
    unfold NamedApart
    cases m.propertyName? with
    | none => simp
    | some name => cases x.propertyName? <;> simp [eq_comm]
  rw [hapart, distinctMembers_eq]
  constructor
  · intro hlength
    rw [← (firstOfEachName_sublist ms).eq_of_length hlength]
    exact firstOfEachName_pairwise ms
  · intro h
    rw [firstOfEachName_of_pairwise h]

/-- What is said about members depends on their names only. -/
theorem shape_memberRemark {n m : Node}
    (h : n.children.filterMap Node.propertyName? = m.children.filterMap Node.propertyName?) :
    (memberRemark n).shape = (memberRemark m).shape := by
  unfold memberRemark
  simp only [length_distinctMembers_eq_iff, h]
  split
  · rfl
  · rfl

/-- **After the children.** Members may have been changed or removed, but not their names. -/
theorem foretold_exit {m : Node} {ds : List Node} (hm : Retains n m)
    (hnames : ds.filterMap Node.propertyName? = n.children.filterMap Node.propertyName?)
    (h : Foretells s t) :
    Foretold (Graft.ofNode n)
      (fun g => ∃ k, g = some (Graft.ofNode k) ∧ k.propertyName? = n.propertyName?)
      (runRules .exit (registry.lookup n.kind) (departure n n l above) s)
      (runRules .exit (registry.lookup n.kind) (departure (m.withChildren ds) n l above') t) := by
  have hname : ∀ children, (m.withChildren children).propertyName? = n.propertyName? :=
    fun _ => hm.propertyName
  cases hkind : n.kind with
  | interfaceBody =>
    refine foretold_single (foretold_runRule (p := departure n n l above)
      (q := departure (m.withChildren ds) n l above') remarks_noDuplicateMember
      (shape_memberRemark hnames.symm) hm.kind.symm (sourceLocation_departure hm.span) h)
      fun g hg => ?_
    unfold memberRemark at hg
    split at hg
    · obtain rfl := List.mem_singleton.mp hg
      exact ⟨_, rfl, hname ds⟩
    · rcases List.mem_pair.mp hg with rfl | rfl
      · exact ⟨_, rfl, hname ds⟩
      · exact ⟨_, rfl, hname _⟩
  | _ => exact ⟨rfl, ⟨_, rfl, hname ds⟩, h⟩

end Node

/-! ### The whole tree -/

/-- Empty comments have nothing below them. -/
def CommentsChildless (tree : Node) : Prop :=
  ∀ m ∈ tree.parts, isEmptyComment m = true → m.children = []

/-- What the two walks leave of a node: the one that describes all of it, the other one something of
    the same name, or nothing if it has no name. -/
def Spared (n : Node) (described fixed : Option Node) : Prop :=
  described = some n ∧ fixed.bind Node.propertyName? = n.propertyName?

/-- What the two walks leave of children. -/
def SparedAll (cs described fixed : List Node) : Prop :=
  described = cs ∧
    fixed.filterMap Node.propertyName? = cs.filterMap Node.propertyName?

/-- One child more. -/
theorem SparedAll.cons {c : Node} {a b : Option Node} {cs as bs : List Node} (h : Spared c a b)
    (h' : SparedAll cs as bs) : SparedAll (c :: cs) (a.toList ++ as) (b.toList ++ bs) := by
  obtain ⟨rfl, hname⟩ := h
  obtain ⟨rfl, hnames⟩ := h'
  refine ⟨rfl, ?_⟩
  rw [List.filterMap_append, hnames, List.filterMap_cons, ← hname]
  cases b with
  | none => rfl
  | some b => cases hb : b.propertyName? <;> simp [hb]

/-- What holds of empty comments holds of those below a child. -/
theorem CommentsChildless.of_child {n c : Node} (h : CommentsChildless n) (hc : c ∈ n.children) :
    CommentsChildless c :=
  fun m hm => h m (Node.mem_parts_of_child hc hm)

section Walk

variable {n : Node} {maxDepth budget : Nat} {l : Location} {above above' : List Step}
  {s t s₁ t₁ : WalkState}

/-- An empty comment that the fixing walk removes is nothing more than reported in the other one,
    which finds no children below it. -/
theorem coupled_walk_removed (hcomment : isEmptyComment n = true) (hchildless : n.children = [])
    (hs : runRules .enter (registry.lookup n.kind) (arrival n l above) s
      = (some (Graft.ofNode n), s₁))
    (ht : runRules .enter (registry.lookup n.kind) (arrival n l above') t = (none, t₁))
    (h : Foretells s₁ t₁) :
    Coupled Foretells (Spared n) (walk registry maxDepth (budget + 1) (Graft.ofNode n) l above s)
      (walk registry maxDepth (budget + 1) (Graft.ofNode n) l above' t) := by
  obtain ⟨payload, span, cs⟩ := n
  obtain rfl : cs = [] := hchildless
  cases payload with
  | comment value =>
    -- No rule has a callback for comments after their children, so that nothing more is reported.
    rw [walk_of_removed (g := Graft.ofNode _) rfl rfl ht, walk_of_left rfl rfl hs rfl rfl]
    exact .ended ⟨rfl, rfl⟩ h
  | _ => cases hcomment

/-- A node that both walks go on with: its children in turn, and then the rules once more. -/
theorem coupled_walk_kept {m : Node} (hm : Retains n m)
    (hs : runRules .enter (registry.lookup n.kind) (arrival n l above) s
      = (some (Graft.ofNode n), s₁))
    (ht : runRules .enter (registry.lookup n.kind) (arrival n l above') t
      = (some (Graft.ofNode m), t₁))
    (hbelow : Coupled Foretells (SparedAll n.children)
      (walkBelow registry maxDepth budget n (Graft.ofNode n) l above s₁)
      (walkBelow registry maxDepth budget n (Graft.ofNode m) l above' t₁)) :
    Coupled Foretells (Spared n) (walk registry maxDepth (budget + 1) (Graft.ofNode n) l above s)
      (walk registry maxDepth (budget + 1) (Graft.ofNode n) l above' t) := by
  generalize hs₂ : walkBelow registry maxDepth budget n (Graft.ofNode n) l above s₁ = out at hbelow
  generalize ht₂ : walkBelow registry maxDepth budget n (Graft.ofNode m) l above' t₁ = out'
    at hbelow
  cases hbelow with
  | failed err h =>
    rw [walk_of_failed rfl rfl hs hs₂, walk_of_failed rfl rfl ht ht₂]
    exact .failed err h
  | @ended s₂ t₂ described ds hspared h =>
    obtain ⟨rfl, hnames⟩ := hspared
    -- The members differ between the walks by now, but their names do not.
    have hexit : Foretold (Graft.ofNode n) _
        (runRules .exit (registry.lookup n.kind) (departure n n l above) s₂)
        (runRules .exit (registry.lookup n.kind) (departure (m.withChildren ds) n l above') t₂) :=
      foretold_exit hm hnames h
    obtain ⟨s₃, t₃, g, hs₃, ht₃, ⟨k, rfl, hk⟩, h₃⟩ := hexit.exists_states
    have hs₃ : runRules .exit (registry.lookup n.kind)
        (departure (n.withChildren n.children) n l above) s₂ = (some (Graft.ofNode n), s₃) := by
      rw [Node.withChildren_children]
      exact hs₃
    rw [walk_of_left rfl rfl hs hs₂ hs₃, walk_of_left rfl rfl ht ht₂ ht₃]
    exact .ended ⟨rfl, hk⟩ h₃

end Walk

/-- **The induction over the tree.** -/
theorem coupled_walk {n : Node} (hn : CommentsChildless n) (maxDepth budget : Nat) (l : Location)
    (above above' : List Step) {s t : WalkState} (h : Foretells s t) :
    Coupled Foretells (Spared n) (walk registry maxDepth budget (Graft.ofNode n) l above s)
      (walk registry maxDepth budget (Graft.ofNode n) l above' t) := by
  induction budget generalizing n l above above' s t with
  | zero => exact .failed _ h
  | succ budget ih =>
    have henter : Foretold (Graft.ofNode n) (Entered n)
        (runRules .enter (registry.lookup n.kind) (arrival n l above) s)
        (runRules .enter (registry.lookup n.kind) (arrival n l above') t) := foretold_enter h
    obtain ⟨s₁, t₁, g, hs, ht, hleft, h₁⟩ := henter.exists_states
    cases hleft with
    | removed hcomment =>
      exact coupled_walk_removed hcomment (hn n (Node.mem_parts_self n) hcomment) hs ht h₁
    | @kept m hm =>
      refine coupled_walk_kept hm hs ht ?_
      unfold walkBelow
      rw [show (Graft.ofNode m).node.children = n.children from hm.children]
      exact coupled_walkChildren Foretells.scopeClosed ⟨rfl, rfl⟩ SparedAll.cons
        (fun i c hc s t hstates => ih (hn.of_child hc) (l.child i) _ _ hstates) none h₁

/-- **A dry run foretells the first fixing pass.** Whatever the enabled categories and the limit of
    depth, for a tree whose empty comments have nothing below them: a pass of the built-in rules
    that describes fixes fails with the error of the pass that makes them, or both succeed and
    report the same diagnostics in outline, one by one. The one that describes queues no edits and
    leaves the tree as it is. -/
theorem dry_run_foretells (config : Config) (cancelled : Bool) (tree : Node)
    (h : ∀ m ∈ tree.parts, isEmptyComment m = true → m.children = []) :
    (∃ err,
      (Engine.runPass ⟨registry, { config with applyFixes := false }⟩ cancelled tree).result
          = .error err ∧
        (Engine.runPass ⟨registry, { config with applyFixes := true }⟩ cancelled tree).result
          = .error err) ∨
      ∃ dry first,
        (Engine.runPass ⟨registry, { config with applyFixes := false }⟩ cancelled tree).result
            = .ok dry ∧
          (Engine.runPass ⟨registry, { config with applyFixes := true }⟩ cancelled tree).result
            = .ok first ∧
          dry.diagnostics.map Diagnostic.outline = first.diagnostics.map Diagnostic.outline ∧
          dry.edits = EditQueue.empty ∧ dry.view = some tree := by
  have hstart : Foretells (WalkState.start (Collector.new .describeOnly config.categories))
      (WalkState.start (Collector.new .applyFixes config.categories)) :=
    ⟨rfl, rfl, rfl, rfl, rfl, rfl⟩
  have hwalks : Coupled Foretells (Spared tree)
      (traverse registry config.maxDepth tree (Collector.new .describeOnly config.categories))
      (traverse registry config.maxDepth tree (Collector.new .applyFixes config.categories)) :=
    coupled_walk h config.maxDepth (config.maxDepth + 1) Location.root [] [] hstart
  have hdry : Engine.runPass ⟨registry, { config with applyFixes := false }⟩ cancelled tree
      = .ofWalk cancelled (traverse registry config.maxDepth tree
          (Collector.new .describeOnly config.categories)) := Engine.runPass_eq_ofWalk _ _ _
  have hfirst : Engine.runPass ⟨registry, { config with applyFixes := true }⟩ cancelled tree
      = .ofWalk cancelled (traverse registry config.maxDepth tree
          (Collector.new .applyFixes config.categories)) := Engine.runPass_eq_ofWalk _ _ _
  rw [hdry, hfirst]
  -- From here on only what the two walks have in common is used.
  generalize traverse registry config.maxDepth tree _ = out at hwalks ⊢
  generalize traverse registry config.maxDepth tree _ = out' at hwalks ⊢
  cases hwalks with
  | failed err _ => exact .inl ⟨err, rfl, rfl⟩
  | ended hspared hstates =>
    exact .inr ⟨_, _, rfl, rfl, hstates.diagnostics, hstates.edits, hspared.1⟩

/-- A page with something for every rule: a void element that is not self-closing, a constraint that
    every type meets, an interface that declares nothing, and one whose body has an empty comment
    between two properties of one name, under a directive. -/
def mixedPage : Node :=
  .ofPayload .document
    [.ofPayload (.element "br" [] false) [],
      .ofPayload (.interface "I")
        [.ofPayload .typeParameterList [.ofPayload (.typeParameter "T" (some "any") none) []],
          .ofPayload .interfaceBody []],
      .ofPayload (.comment "weft-ignore TS_NO_DUPLICATE_MEMBER") [],
      .ofPayload (.interface "J")
        [.ofPayload .interfaceBody
          [.ofPayload (.propertySignature "a" false false none) [],
            .ofPayload (.comment "") [],
            .ofPayload (.propertySignature "a" true false none) []]]]

/-- When the fixing pass looks for duplicate members, it has removed the comment between them. -/
theorem dry_run_foretells_mixedPage :
    (∀ m ∈ mixedPage.parts, isEmptyComment m = true → m.children = []) ∧
      ∃ dry first,
        (Engine.runPass ⟨registry, { applyFixes := false }⟩ false mixedPage).result = .ok dry ∧
          (Engine.runPass ⟨registry, { applyFixes := true }⟩ false mixedPage).result = .ok first ∧
          first.edits.edits.map (·.location) = [⟨[0]⟩, ⟨[1, 0, 0]⟩, ⟨[3, 0]⟩, ⟨[3, 0, 1]⟩] ∧
          first.diagnostics.map (fun d => (d.location.node, d.suppressed, d.hasFix))
            = [(⟨[0]⟩, false, true), (⟨[1]⟩, false, false), (⟨[1, 0, 0]⟩, false, true),
              (⟨[3, 0, 1]⟩, false, true), (⟨[3, 0]⟩, true, true)] ∧
          dry.diagnostics.map Diagnostic.outline = first.diagnostics.map Diagnostic.outline ∧
          dry.edits = EditQueue.empty ∧ dry.view = some mixedPage := by
  have hchildless : ∀ m ∈ mixedPage.parts, isEmptyComment m = true → m.children = [] := by
    decide
  have hrun : ((Engine.runPass ⟨registry, { applyFixes := true }⟩ false
        mixedPage).result.toOption.map fun pass => (pass.edits.edits.map (·.location),
          pass.diagnostics.map fun d => (d.location.node, d.suppressed, d.hasFix)))
      = some ([⟨[0]⟩, ⟨[1, 0, 0]⟩, ⟨[3, 0]⟩, ⟨[3, 0, 1]⟩],
          [(⟨[0]⟩, false, true), (⟨[1]⟩, false, false), (⟨[1, 0, 0]⟩, false, true),
            (⟨[3, 0, 1]⟩, false, true), (⟨[3, 0]⟩, true, true)]) := by
    decide +kernel
  obtain ⟨first, hfirst, hvalues⟩ := exists_ok_of_map_toOption hrun
  simp only [Prod.mk.injEq] at hvalues
  rcases dry_run_foretells {} false mixedPage hchildless with ⟨err, -, herr⟩ |
    ⟨dry, first', hdry, hfirst', hrest⟩
  · exact absurd (hfirst.symm.trans herr) (by simp)
  · obtain rfl : first = first' := Except.ok.inj (hfirst.symm.trans hfirst')
    exact ⟨hchildless, dry, first, hdry, hfirst, hvalues.1, hvalues.2, hrest⟩

end Builtin

end TreeLint
