import Mathlib
import TreeLint.Proofs.DryRun
import TreeLint.Proofs.Scope

namespace TreeLint

/-!
# Diagnostics point at nodes of the tree

Rules are shown nodes that other rules have changed already, and children of such nodes, while
locations are meant for the tree that the pass began with. They fit if the rules leave enough of
each node as it was.

* `Visit.MadeFor` says for which rule a callback was invoked, and what came of it.
* `PresentLaw` collects what has to be shown of rules so that the node that a callback is shown
  differs from the one that the pass found there in known ways only. `PresentLaw.logs_walk` is the
  induction over the walk.
* `Builtin.Repairs` lists the repairs that the built-in rules make, and
  `Builtin.repairs_of_mem_assignments` says that these are all. `Builtin.Keeps` is what they leave
  as it was: the kind and the span, and before the children are walked also the children.
* `Builtin.runPass_points_at_nodes` is the result.
-/

/-! ### What is known of an invocation -/

/-- The invocation asked the rule, which looks at nodes of this kind and is enabled, and added what
    its callback found. -/
structure Visit.MadeFor (v : Visit) (r : Rule) (callback : Callback) : Prop where
  rule : v.rule = r.name
  callback? : r.callback? v.phase = some callback
  accepts : r.accepts v.path.kind = true
  enabled : v.collector.isEnabled r.category = true
  added : v.added = v.collector.diagnosed (callback v.path v.collector).findings

/-- From `a` to `b` a walk invoked only callbacks as `P` says. -/
def Logs (P : Visit → Prop) (a b : WalkState) : Prop :=
  ∃ new : List Visit, b.log = a.log ++ new ∧ ∀ v ∈ new, P v

namespace Logs

variable {P : Visit → Prop} {a b c : WalkState}

theorem refl (s : WalkState) : Logs P s s := ⟨[], (List.append_nil _).symm, by simp⟩

/-- Two parts of a walk. -/
theorem trans (h : Logs P a b) (h' : Logs P b c) : Logs P a c := by
  obtain ⟨new, hlog, hnew⟩ := h
  obtain ⟨new', hlog', hnew'⟩ := h'
  refine ⟨new ++ new', ?_, ?_⟩
  · rw [hlog', hlog, List.append_assoc]
  · intro v hv
    rcases List.mem_append.mp hv with hv | hv
    · exact hnew v hv
    · exact hnew' v hv

/-- Suppressions are not logged. -/
theorem leave {scope : Option Suppression} (h : Logs P (a.under scope) b) :
    Logs P a (b.leave scope) := by
  cases scope with
  | none => exact h
  | some d => exact h

/-- The walk of children invokes only such callbacks, if the walk of each child does. -/
theorem walkChildren (visit : Nat → Node → WalkState → Walked (Option Node)) {i : Nat}
    {cs : List Node}
    (hvisit : ∀ j c, cs[j]? = some c → ∀ s, Logs P s (visit (i + j) c s).2)
    (pending : Option Suppression) (s : WalkState) :
    Logs P s (TreeLint.walkChildren visit i pending cs s).2 := by
  induction cs generalizing i pending s with
  | nil => exact refl s
  | cons c cs ih =>
    have hfirst := (hvisit 0 c rfl (s.under (scopeOf pending c))).leave
    rw [Nat.add_zero] at hfirst
    have hrest := ih (i := i + 1) fun j d hd => by
      have := hvisit (j + 1) d hd
      rwa [show i + (j + 1) = i + 1 + j by omega] at this
    cases hout : visit i c (s.under (scopeOf pending c)) with
    | mk result s' =>
      rw [hout] at hfirst
      cases result with
      | error e =>
        rw [walkChildren_cons_of_error cs hout]
        exact hfirst
      | ok walked =>
        rw [walkChildren_cons_of_ok cs hout]
        exact hfirst.trans (hrest _ _)

end Logs

/-- The diagnostics of a pass are those that its invocations added. -/
theorem Engine.diagnostics_of_runPass_ok {e : Engine} {cancelled : Bool} {tree : Node}
    {pass : PassResult} (h : (e.runPass cancelled tree).result = .ok pass) :
    (∃ view, (traverse e.registry e.config.maxDepth tree e.collector).1 = .ok view) ∧
      pass.diagnostics = (e.runPass cancelled tree).visits.toList.flatMap Visit.added := by
  have hdiagnostics :=
    (emits_traverse e.registry e.config.maxDepth tree (c := e.collector) rfl).1
  rw [runPass_eq_ofWalk] at h ⊢
  unfold Run.ofWalk at h ⊢
  cases hwalk : (traverse e.registry e.config.maxDepth tree e.collector).1 with
  | error err =>
    rw [hwalk] at h
    cases h
  | ok view =>
    rw [hwalk] at h
    obtain rfl := Except.ok.inj h
    exact ⟨⟨view, rfl⟩, hdiagnostics⟩

/-! ### Rules that keep something of each node -/

/-- What has to be shown so that callbacks are shown nodes that differ from those that the pass
    found as `Kept` says: the node that was found comes first, and then the present one. `C` is
    known of each node that was found and its location. -/
structure PresentLaw (registry : Registry) (Kept : Phase → Node → Node → Prop)
    (C : Node → Location → Prop) : Prop where
  arrive : ∀ n, Kept .enter n n
  /-- What a rule leaves differs in no other way. -/
  leaves : ∀ {r phase p s g}, r ∈ registry.rules → Kept phase p.here.found p.node →
    (runRule r phase p s).1 = some g → Kept phase p.here.found g.node
  /-- Nor does the node with the children that the walk has left. -/
  depart : ∀ {found m}, Kept .enter found m → ∀ children, Kept .exit found (m.withChildren children)
  /-- What is known of a node is known of the children that are walked. -/
  child : ∀ {found l m}, C found l → Kept .enter found m → ∀ i c, m.children[i]? = some c →
    C c (l.child i)

/-- The invocation was made for a rule of the registry, at a place of which `C` is known, and was
    shown a node of which as much is left as `Kept` says. -/
structure Visit.Known (registry : Registry) (Kept : Phase → Node → Node → Prop)
    (C : Node → Location → Prop) (v : Visit) : Prop where
  made : ∃ r ∈ registry.rules, ∃ callback, v.MadeFor r callback
  place : C v.path.here.found v.path.location
  kept : Kept v.phase v.path.here.found v.path.node

namespace PresentLaw

variable {registry : Registry} {Kept : Phase → Node → Node → Prop} {C : Node → Location → Prop}
  {phase : Phase} {p : Path}

/-- Asking a rule logs one invocation at most, and that one is known. -/
theorem logs_runRule {r : Rule} (hr : r ∈ registry.rules) (hplace : C p.here.found p.location)
    (hkept : Kept phase p.here.found p.node) (s : WalkState) :
    Logs (Visit.Known registry Kept C) s (runRule r phase p s).2 := by
  cases hcallback : r.callback? phase with
  | none =>
    rw [runRule_of_none hcallback]
    exact .refl s
  | some callback =>
    rw [state_runRule hcallback]
    split
    · rename_i hasked
      obtain ⟨haccepts, henabled⟩ := Bool.and_eq_true_iff.mp hasked
      refine ⟨_, log_react_eq s r phase p _, fun v hv => ?_⟩
      rw [List.mem_singleton.mp hv]
      exact ⟨⟨r, hr, callback, rfl, hcallback, haccepts, henabled, rfl⟩, hplace, hkept⟩
    · exact .refl s

/-- Rules in turn: each of them is shown what the one before it left. -/
theorem logs_runRules (law : PresentLaw registry Kept C) {rules : List Rule}
    (hrules : ∀ r ∈ rules, r ∈ registry.rules) (hplace : C p.here.found p.location)
    (hkept : Kept phase p.here.found p.node) (s : WalkState) :
    Logs (Visit.Known registry Kept C) s (runRules phase rules p s).2 ∧
      ∀ g, (runRules phase rules p s).1 = some g → Kept phase p.here.found g.node := by
  induction rules generalizing p s with
  | nil =>
    refine ⟨.refl s, fun g hg => ?_⟩
    obtain rfl : p.here.graft = g := Option.some.inj hg
    exact hkept
  | cons r rules ih =>
    have hr := hrules r List.mem_cons_self
    have hlogs := logs_runRule hr hplace hkept s
    have hleft : ∀ g, (runRule r phase p s).1 = some g → Kept phase p.here.found g.node :=
      fun g hg => law.leaves hr hkept hg
    rw [runRules]
    generalize runRule r phase p s = out at hlogs hleft ⊢
    obtain ⟨g, s'⟩ := out
    cases g with
    | none => exact ⟨hlogs, fun g hg => absurd hg.symm (Option.some_ne_none g)⟩
    | some g =>
      obtain ⟨hlogs', hleft'⟩ := ih (p := { p with here := { p.here with graft := g } })
        (fun r' hr' => hrules r' (List.mem_cons_of_mem r hr')) hplace (hleft g rfl) s'
      exact ⟨hlogs.trans hlogs', hleft'⟩

/-- **The induction over a walk.** All invocations of the walk of a node are made for nodes of which
    enough is left, at known places, whatever the result of the walk is. -/
theorem logs_walk (law : PresentLaw registry Kept C) (maxDepth budget : Nat) (g : Graft)
    {l : Location} (above : List Step) (hplace : C g.node l) (s : WalkState) :
    Logs (Visit.Known registry Kept C) s (walk registry maxDepth budget g l above s).2 := by
  induction budget generalizing g l above s with
  | zero =>
    rw [walk]
    split
    · exact .refl s
    · exact .refl s
  | succ budget ih =>
    have hlookup : ∀ r ∈ registry.lookup g.node.kind, r ∈ registry.rules :=
      fun r hr => (Registry.mem_lookup.mp hr).1
    rw [walk]
    split
    · split
      · exact .refl s
      · obtain ⟨henter, hentered⟩ := law.logs_runRules (p := ⟨⟨g, g.node, l⟩, above⟩) hlookup hplace
          (law.arrive g.node) s
        simp only
        split
        · rename_i s₁ heq
          rw [heq] at henter
          exact henter
        · rename_i entered s₁ heq
          rw [heq] at henter hentered
          have hkept : Kept .enter g.node entered.node := hentered entered rfl
          -- The children are those that the rules have left, and at their own locations.
          have hvisit : ∀ j c, entered.node.children[j]? = some c → ∀ s,
              Logs (Visit.Known registry Kept C) s
                (walk registry maxDepth budget (entered.child (0 + j) c) (l.child (0 + j))
                  (⟨entered, g.node, l⟩ :: above) s).2 := by
            intro j c hc s
            rw [Nat.zero_add]
            exact ih (entered.child j c) _ (law.child hplace hkept j c hc) s
          have hchildren := Logs.walkChildren
            (fun i c => walk registry maxDepth budget (entered.child i c) (l.child i)
              (⟨entered, g.node, l⟩ :: above)) hvisit none s₁
          split
          · rename_i e s₂ heq'
            rw [heq'] at hchildren
            exact henter.trans hchildren
          · rename_i children s₂ heq'
            rw [heq'] at hchildren
            obtain ⟨hexit, -⟩ := law.logs_runRules
              (p := ⟨⟨Graft.ofNode (entered.node.withChildren children), g.node, l⟩, above⟩)
              hlookup hplace (law.depart hkept children) s₂
            split
            · rename_i s₃ heq₃
              rw [heq₃] at hexit
              exact henter.trans (hchildren.trans hexit)
            · rename_i last s₃ heq₃
              rw [heq₃] at hexit
              exact henter.trans (hchildren.trans hexit)
    · exact .refl s

/-- The same for whole trees. -/
theorem known_traverse (law : PresentLaw registry Kept C) (maxDepth : Nat) {tree : Node}
    (htree : C tree Location.root) (c : Collector) :
    ∀ v ∈ (traverse registry maxDepth tree c).2.visits.toList, v.Known registry Kept C := by
  obtain ⟨new, hlog, hnew⟩ := law.logs_walk maxDepth (maxDepth + 1) (Graft.ofNode tree) []
    htree (WalkState.start c)
  have hvisits : (traverse registry maxDepth tree c).2.visits.toList = new := hlog
  rw [hvisits]
  exact hnew

end PresentLaw

/-! ### The built-in rules -/

/-- A remark leaves the node as it is, or as its repair says. -/
theorem Remark.eq_of_some_mem_outcomes {remark : Remark} {present g : Graft}
    (h : some g ∈ remark.outcomes present) :
    g = present ∨ ∃ message, remark = .repair message g.node := by
  cases remark with
  | nothing => exact .inl (Option.some.inj (List.mem_singleton.mp h))
  | report message => exact .inl (Option.some.inj (List.mem_singleton.mp h))
  | repair message fixed =>
    rcases List.mem_pair.mp h with h | h
    · exact .inl (Option.some.inj h)
    · obtain rfl := Option.some.inj h
      exact .inr ⟨message, rfl⟩
  | discard message =>
    rcases List.mem_pair.mp h with h | h
    · exact .inl (Option.some.inj h)
    · cases h

/-- A remark is about the node and in the category of the rule. -/
theorem Remark.eq_of_mem_findings {remark : Remark} {p : Path} {c : Collector}
    {category : Category} {f : Finding} (h : f ∈ (remark.reaction p c category).findings) :
    f.category = category ∧ f.location = p.sourceLocation := by
  cases remark with
  | nothing => cases h
  | report message =>
    obtain rfl := List.mem_singleton.mp h
    exact ⟨rfl, rfl⟩
  | repair message fixed =>
    obtain rfl := List.mem_singleton.mp h
    exact ⟨rfl, rfl⟩
  | discard message =>
    obtain rfl := List.mem_singleton.mp h
    exact ⟨rfl, rfl⟩

/-- A diagnostic points to the place of its finding. -/
@[simp] theorem Collector.location_diagnose (c : Collector) (f : Finding) :
    (c.diagnose f).location = f.location := by
  unfold diagnose
  cases f.fix <;> rfl

namespace Builtin

/-- What the built-in rules leave of a node as it was. -/
structure Keeps (phase : Phase) (n m : Node) : Prop where
  kind : m.kind = n.kind
  span : m.span = n.span
  /-- The children are looked at by number, so they have to be the same until they are walked. -/
  children : phase = .enter → m.children = n.children

namespace Keeps

variable {phase : Phase} {n m k : Node}

theorem refl (phase : Phase) (n : Node) : Keeps phase n n := ⟨rfl, rfl, fun _ => rfl⟩

theorem trans (h : Keeps phase n m) (h' : Keeps phase m k) : Keeps phase n k :=
  ⟨h'.kind.trans h.kind, h'.span.trans h.span,
    fun henter => (h'.children henter).trans (h.children henter)⟩

/-- A new payload of the same kind keeps what matters. -/
theorem withPayload {payload : Payload} (h : payload.kind = n.payload.kind) :
    Keeps phase n (n.withPayload payload) := by
  obtain ⟨payload', span, cs⟩ := n
  exact ⟨h, rfl, fun _ => rfl⟩

end Keeps

/-- Which rule repairs the node `n`, when, and what it puts in its place. -/
inductive Repairs (n : Node) : Rule → Phase → Node → Prop where
  | void {tag : String} {attributes : List Attribute}
      (hpayload : n.payload = .element tag attributes false) (htag : isVoidElement tag = true) :
      Repairs n preferSelfClosing .enter (n.withPayload (.element tag attributes true))
  | empty {tag : String} {attributes : List Attribute}
      (hpayload : n.payload = .element tag attributes false) (htag : isVoidElement tag = false) :
      Repairs n addSelfClosing .enter (n.withPayload (.element tag attributes true))
  | constraint {name constraint : String} {default : Option String}
      (hpayload : n.payload = .typeParameter name (some constraint) default) :
      Repairs n noUnknownConstraint .enter (n.withPayload (.typeParameter name none default))
  | members : Repairs n noDuplicateMember .exit (n.withChildren (distinctMembers [] n.children))

/-- Closing repairs elements of which the tag passes the test. -/
theorem exists_of_closingRemark {test : String → Bool} {message message' : MessageId}
    {n fixed : Node} (h : closingRemark test message' n = .repair message fixed) :
    ∃ tag attributes, n.payload = .element tag attributes false ∧ test tag = true ∧
      fixed = n.withPayload (.element tag attributes true) := by
  unfold closingRemark at h
  split at h
  · rename_i tag attributes hopen
    split at h
    · rename_i htest
      exact ⟨tag, attributes, payload_of_openEmptyElement? hopen, htest,
        (Remark.repair.inj h).2.symm⟩
    · cases h
  · cases h

/-- **What the built-in rules repair.** -/
theorem repairs_of_mem_assignments {r : Rule} {phase : Phase} {remark : Node → Remark}
    (hmem : (r, phase, remark) ∈ assignments) {n fixed : Node} {message : MessageId}
    (h : remark n = .repair message fixed) : Repairs n r phase fixed := by
  simp only [assignments, List.mem_cons, Prod.mk.injEq, List.not_mem_nil, or_false] at hmem
  -- Comments are discarded and interfaces are only reported; the others are repaired.
  rcases hmem with ⟨rfl, rfl, rfl⟩ | ⟨rfl, rfl, rfl⟩ | ⟨rfl, rfl, rfl⟩ | ⟨rfl, rfl, rfl⟩ |
    ⟨rfl, rfl, rfl⟩ | ⟨rfl, rfl, rfl⟩
  · obtain ⟨tag, attributes, hpayload, htag, rfl⟩ := exists_of_closingRemark h
    exact .void hpayload htag
  · obtain ⟨tag, attributes, hpayload, htag, rfl⟩ := exists_of_closingRemark h
    exact .empty hpayload (by simpa using htag)
  · unfold commentRemark at h
    split at h
    · cases h
    · cases h
  · unfold constraintRemark at h
    split at h
    · rename_i name constraint default hpayload
      split at h
      · obtain ⟨-, rfl⟩ := Remark.repair.inj h
        exact .constraint hpayload
      · cases h
    · cases h
  · unfold interfaceRemark at h
    split at h
    · cases h
    · cases h
  · unfold memberRemark at h
    split at h
    · cases h
    · obtain ⟨-, rfl⟩ := Remark.repair.inj h
      exact .members

/-- A repair puts another payload of the same kind in place, or, after the children were walked,
    other children. -/
theorem Repairs.keeps {n fixed : Node} {r : Rule} {phase : Phase} (h : Repairs n r phase fixed) :
    Keeps phase n fixed := by
  cases h with
  | void hpayload => exact .withPayload (by rw [hpayload]; rfl)
  | empty hpayload => exact .withPayload (by rw [hpayload]; rfl)
  | constraint hpayload => exact .withPayload (by rw [hpayload]; rfl)
  | members =>
    obtain ⟨payload, span, cs⟩ := n
    exact ⟨rfl, rfl, fun henter => by cases henter⟩

/-- No built-in rule moves anything: the nodes that the pass finds are those of the tree at their
    locations. -/
theorem presentLaw {tree : Node} (htree : tree.Addressable) :
    PresentLaw registry Keeps (fun n l => tree.get? l = some n) where
  arrive := Keeps.refl .enter
  leaves := by
    intro r phase p s g hr hkept hg
    cases hcallback : r.callback? phase with
    | none =>
      rw [runRule_of_none hcallback] at hg
      obtain rfl : p.here.graft = g := Option.some.inj hg
      exact hkept
    | some callback =>
      -- A built-in rule reacts to a remark, which leaves the node or repairs it.
      obtain ⟨remark, hmem, callback', hcallback', hremark⟩ := exists_mem_assignments hr hcallback
      have hout := Remark.mem_outcomes hcallback' (hremark p s.collector)
      rw [hg] at hout
      rcases Remark.eq_of_some_mem_outcomes hout with rfl | ⟨message, hrepair⟩
      · exact hkept
      · exact hkept.trans (repairs_of_mem_assignments hmem hrepair).keeps
  depart := by
    rintro found ⟨payload, span, cs⟩ hkept children
    exact ⟨hkept.kind, hkept.span, fun henter => by cases henter⟩
  child := by
    intro found l m hfound hkept i c hc
    rw [hkept.children rfl] at hc
    have hlt := (List.getElem?_eq_some_iff.mp hc).1
    have hle := (htree.of_mem (Node.mem_parts_of_get? hfound)).children_length
    exact Node.get?_child_of_get? (lt_of_lt_of_le hlt hle) hfound hc

/-- Each built-in rule is registered for one kind. -/
theorem accepts_iff_of_accepts {r : Rule} (hr : r ∈ rules) {kind : Kind}
    (h : r.accepts kind = true) (kind' : Kind) : r.accepts kind' = true ↔ kind' = kind := by
  simp only [rules, List.mem_cons, List.not_mem_nil, or_false] at hr
  rcases hr with rfl | rfl | rfl | rfl | rfl | rfl
  all_goals
    obtain rfl := of_decide_eq_true h
    exact decide_eq_true_iff

/-- **Diagnostics point at real nodes.** For all settings, whether or not fixes are made, and for
    every tree whose nodes can be addressed: each diagnostic of a pass with the built-in rules was
    added by an invocation of a rule of its category, its location leads to a node of the tree, its
    span is the span of that node, and the rule is registered for the kind of that node and for no
    other. The nodes are those of the tree that the pass began with, also where rules have replaced
    them, or nodes above or beside them, before. -/
theorem runPass_points_at_nodes (config : Config) (cancelled : Bool) (tree : Node)
    (htree : tree.Addressable) (pass : PassResult)
    (hpass : (Engine.runPass ⟨registry, config⟩ cancelled tree).result = .ok pass) :
    ∀ d ∈ pass.diagnostics,
      ∃ v ∈ (Engine.runPass ⟨registry, config⟩ cancelled tree).visits.toList,
      ∃ r ∈ rules, d ∈ v.added ∧ v.rule = r.name ∧ d.category = r.category ∧
        ∃ n, tree.get? d.location.node = some n ∧ d.location.span = n.span ∧
          ∀ kind, r.accepts kind = true ↔ kind = n.kind := by
  intro d hd
  rw [(Engine.diagnostics_of_runPass_ok hpass).2] at hd
  obtain ⟨v, hv, hadded⟩ := List.mem_flatMap.mp hd
  obtain ⟨⟨r, hr, callback, hmade⟩, hplace, hkept⟩ :=
    (presentLaw htree).known_traverse config.maxDepth (Node.get?_root tree) _ v hv
  -- The rule has made its remark on the node that it was shown.
  obtain ⟨remark, -, callback', hcallback', hremark⟩ := exists_mem_assignments hr hmade.callback?
  obtain rfl : callback = callback' := Option.some.inj (hmade.callback?.symm.trans hcallback')
  have hfound := hadded
  rw [hmade.added, hremark] at hfound
  obtain ⟨f, hf, rfl⟩ := List.mem_map.mp hfound
  obtain ⟨hcategory, hlocation⟩ := Remark.eq_of_mem_findings (List.mem_filter.mp hf).1
  refine ⟨v, hv, r, hr, hadded, hmade.rule, ?_, v.path.here.found, ?_, ?_, ?_⟩
  · rw [Collector.category_diagnose]
    exact hcategory
  · rw [Collector.location_diagnose, hlocation]
    exact hplace
  · rw [Collector.location_diagnose, hlocation]
    exact hkept.span
  · rw [← hkept.kind]
    exact accepts_iff_of_accepts hr hmade.accepts

/-- The range between two offsets in order. -/
def between (start stop : UInt32) : Span := (Span.ofBounds? start stop).getD .zero

/-- A page with an empty comment before a void element, and another one between two properties of
    one name. -/
def commentedPage : Node :=
  ⟨.document, between 0 60,
    [⟨.comment "", between 0 7, []⟩,
      ⟨.element "br" [] false, between 8 12, []⟩,
      ⟨.interface "I", between 13 60,
        [⟨.interfaceBody, between 25 60,
          [⟨.propertySignature "a" false false none, between 27 30, []⟩,
            ⟨.comment "", between 31 38, []⟩,
            ⟨.propertySignature "a" false false none, between 39 42, []⟩]⟩]⟩]⟩

theorem addressable_commentedPage : commentedPage.Addressable := by
  unfold Node.Addressable
  decide

/-- When the element is reported, the comment before it is gone, and when the body is reported, it
    has lost a child. -/
theorem runPass_points_at_nodes_commentedPage :
    commentedPage.Addressable ∧
      ∃ pass, (Engine.runPass ⟨registry, { applyFixes := true }⟩ false commentedPage).result
          = .ok pass ∧
        pass.diagnostics.map (fun d => (d.location.node, d.location.span.start))
          = [(⟨[0]⟩, 0), (⟨[1]⟩, 8), (⟨[2, 0, 1]⟩, 31), (⟨[2, 0]⟩, 25)] ∧
        ∀ d ∈ pass.diagnostics, ∃ n, commentedPage.get? d.location.node = some n ∧
          d.location.span = n.span := by
  have hrun : ((Engine.runPass ⟨registry, { applyFixes := true }⟩ false
        commentedPage).result.toOption.map fun pass =>
          pass.diagnostics.map fun d => (d.location.node, d.location.span.start))
      = some [(⟨[0]⟩, 0), (⟨[1]⟩, 8), (⟨[2, 0, 1]⟩, 31), (⟨[2, 0]⟩, 25)] := by
    decide +kernel
  obtain ⟨pass, hpass, hlocations⟩ := exists_ok_of_map_toOption hrun
  refine ⟨addressable_commentedPage, pass, hpass, hlocations, fun d hd => ?_⟩
  obtain ⟨-, -, -, -, -, -, -, n, hn, hspan, -⟩ := runPass_points_at_nodes { applyFixes := true }
    false commentedPage addressable_commentedPage pass hpass d hd
  exact ⟨n, hn, hspan⟩

end Builtin

end TreeLint
