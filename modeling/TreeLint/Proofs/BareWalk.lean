import Mathlib
import TreeLint.Proofs.Erasure
import TreeLint.Proofs.Lockstep

namespace TreeLint

/-!
# Walks without spans

If the callbacks of the rules do not look at spans, neither does the walk: the walk of a bare tree
is the bare form of the walk of the tree.

* `bare` takes the spans out of whatever a walk handles: paths, reactions, diagnostics, the state.
* `Registry.IgnoresSpans` says that callbacks answer a bare path with the bare answer.
* `runRule_bare` is about one rule, `runRules_bare` about rules in turn, `walkChildren_bare` about
  the children of a node. `walk_bare` is the induction over the walk.
-/

/-! ### What rules are given -/

/-- The graft with a bare node. What stands below itself, and where, stays the same. -/
def Graft.bare (g : Graft) : Graft := { g with node := g.node.bare }

/-- The step with bare nodes. -/
def Step.bare (s : Step) : Step := { s with graft := s.graft.bare, found := s.found.bare }

/-- The path through bare nodes. -/
def Path.bare (p : Path) : Path := ⟨p.here.bare, p.above.map Step.bare⟩

/-- The place in the tree, without the place in the source. -/
def SourceLocation.bare (l : SourceLocation) : SourceLocation := { l with span := Span.zero }

/-- The patch with bare nodes. -/
def Patch.bare (p : Patch) : Patch := ⟨p.old.bare, p.fixed.bare⟩

/-- The diagnostic without spans. -/
def Diagnostic.bare (d : Diagnostic) : Diagnostic :=
  { d with location := d.location.bare, patch := d.patch.map Patch.bare }

/-- The collector with bare diagnostics. -/
def Collector.bare (c : Collector) : Collector :=
  { c with diagnostics := c.diagnostics.map Diagnostic.bare }

/-- Whether a node is its own ancestor does not depend on spans. -/
theorem Graft.isLoop_bare (g : Graft) (above : List Step) :
    g.bare.isLoop (above.map Step.bare) = g.isLoop above := by
  unfold isLoop
  rw [List.any_map]
  rfl

/-! ### What rules ask for -/

/-- The fix with bare nodes. -/
def Fix.bare : Fix → Fix
  | none => none
  | replacement patch => replacement patch.bare
  | removal => removal

/-- The finding without spans. -/
def Finding.bare (f : Finding) : Finding :=
  { f with location := f.location.bare, fix := f.fix.bare }

/-- The transform with a bare node. -/
def Transform.bare : Transform → Transform
  | unchanged => unchanged
  | reported => reported
  | replace graft => replace graft.bare

/-- The request with a bare node. -/
def EditRequest.bare : EditRequest → EditRequest
  | replace levels graft => replace levels graft.bare
  | remove levels => remove levels

/-- The reaction without spans. -/
def Reaction.bare (r : Reaction) : Reaction :=
  { r with
    findings := r.findings.map Finding.bare
    edits := r.edits.map EditRequest.bare
    transform := r.transform.bare }

namespace Collector

/-- A finding without spans gives the diagnostic without spans. -/
theorem diagnose_bare (c : Collector) (f : Finding) :
    c.bare.diagnose f.bare = (c.diagnose f).bare := by
  obtain ⟨category, location, message, fix⟩ := f
  cases fix with
  | none => rfl
  | replacement patch => rfl
  | removal => rfl

/-- It is recorded without spans. -/
theorem add_bare (c : Collector) (f : Finding) : c.bare.add f.bare = (c.add f).bare := by
  have henabled : c.bare.isEnabled f.bare.category = c.isEnabled f.category := rfl
  unfold add
  rw [henabled, diagnose_bare]
  split
  · simp [bare]
  · rfl

/-- So are several findings. -/
theorem addAll_bare (c : Collector) (fs : List Finding) :
    c.bare.addAll (fs.map Finding.bare) = (c.addAll fs).bare := by
  unfold addAll
  rw [List.foldl_map]
  exact List.foldl_hom bare add_bare

end Collector

/-- The edits that a reaction asks for do not depend on spans: the transform is compared with the
    present node up to structure. -/
theorem Reaction.requests_bare (r : Reaction) (p : Path) :
    r.bare.requests p.bare = (r.requests p).map EditRequest.bare := by
  obtain ⟨findings, edits, transform, cancels⟩ := r
  cases transform with
  | unchanged => rfl
  | reported => rfl
  | replace g =>
    have hsame : (g.bare.node == p.bare.node) = (g.node == p.node) := Node.beq_bare g.node p.node
    simp only [bare, Transform.bare, requests, hsame]
    split
    · rfl
    · simp [EditRequest.bare]

/-- What the last request for the node itself puts in place has no spans. -/
theorem ownGraft_bare (g : Graft) (requests : List EditRequest) :
    ownGraft g.bare (requests.map EditRequest.bare) = (ownGraft g requests).bare := by
  unfold ownGraft
  rw [List.foldl_map]
  refine List.foldl_hom Graft.bare fun g r => ?_
  cases r with
  | remove levels => rfl
  | replace levels own =>
    cases levels with
    | zero => rfl
    | succ levels => rfl

/-! ### The walk -/

/-- What a callback saw, without spans. -/
def Visit.bare (v : Visit) : Visit :=
  { v with
    path := v.path.bare
    collector := v.collector.bare
    edits := v.edits.bare
    added := v.added.map Diagnostic.bare }

namespace WalkState

/-- The state without spans. -/
def bare (s : WalkState) : WalkState :=
  { s with
    collector := s.collector.bare
    edits := s.edits.bare
    visits := s.visits.map Visit.bare }

/-- A request without spans queues the edit without spans. -/
theorem request_bare (steps : List Step) (q : EditQueue) (r : EditRequest) :
    request (steps.map Step.bare) q.bare r.bare = (request steps q r).bare := by
  have hlevels : r.bare.levels = r.levels := by
    cases r with
    | replace levels graft => rfl
    | remove levels => rfl
  have haction : r.bare.action = r.action.bare := by
    cases r with
    | replace levels graft => rfl
    | remove levels => rfl
  unfold request
  rw [hlevels, haction, List.getElem?_map]
  cases steps[r.levels]? with
  | none => rfl
  | some s => exact (q.bare_push s.location s.found r.action).symm

/-- A reaction can be stripped of spans before or after. -/
theorem react_bare (s : WalkState) (r : Rule) (phase : Phase) (p : Path) (reaction : Reaction) :
    s.bare.react r phase p.bare reaction.bare = (s.react r phase p reaction).bare := by
  have hedits : (reaction.bare.requests p.bare).foldl (request (p.bare.here :: p.bare.above))
      s.edits.bare = ((reaction.requests p).foldl (request (p.here :: p.above)) s.edits).bare := by
    rw [Reaction.requests_bare, List.foldl_map]
    exact List.foldl_hom EditQueue.bare fun q e => request_bare (p.here :: p.above) q e
  have hcollector : s.collector.bare.addAll reaction.bare.findings
      = (s.collector.addAll reaction.findings).bare := s.collector.addAll_bare reaction.findings
  -- What an invocation added is cut off the list of all diagnostics by its length.
  have hadded : ((s.collector.addAll reaction.findings).bare.diagnostics).drop
      s.collector.bare.diagnostics.length
        = ((s.collector.addAll reaction.findings).diagnostics.drop
            s.collector.diagnostics.length).map Diagnostic.bare := by
    unfold Collector.bare
    rw [List.length_map, List.map_drop]
  unfold react bare
  simp only [hedits, hcollector, hadded, Array.map_push]
  rfl

end WalkState

/-- The callback answers a bare path with the bare answer. -/
def Callback.IgnoresSpans (callback : Callback) : Prop :=
  ∀ p c, callback p.bare c.bare = (callback p c).bare

/-- No callback of the rule looks at spans. -/
def Rule.IgnoresSpans (r : Rule) : Prop :=
  ∀ phase callback, r.callback? phase = some callback → callback.IgnoresSpans

/-- No callback of a rule looks at spans. -/
def Registry.IgnoresSpans (registry : Registry) : Prop := ∀ r ∈ registry.rules, r.IgnoresSpans

/-- **One rule.** What a rule makes of a bare node is the bare form of what it makes of the node. -/
theorem runRule_bare {r : Rule} (hr : r.IgnoresSpans) (phase : Phase) (p : Path) (s : WalkState) :
    runRule r phase p.bare s.bare
      = (runRule r phase p s).map (Option.map Graft.bare) WalkState.bare := by
  cases hcallback : r.callback? phase with
  | none =>
    rw [runRule_of_none hcallback, runRule_of_none hcallback]
    rfl
  | some callback =>
    have hkind : p.bare.kind = p.kind := Node.kind_bare p.node
    have henabled : s.bare.collector.isEnabled r.category = s.collector.isEnabled r.category := rfl
    have hreaction : callback p.bare s.bare.collector = (callback p s.collector).bare :=
      hr phase callback hcallback p s.collector
    unfold runRule
    simp only [hcallback, hkind, henabled, hreaction, WalkState.react_bare]
    -- All that is read off the queue is the number of pushes and the edit at the location.
    generalize s.react r phase p (callback p s.collector) = next
    have hrevision : (next.bare.edits.revision = s.bare.edits.revision)
      = (next.edits.revision = s.edits.revision) := rfl
    have hget : next.bare.edits.get? p.bare.location
        = (next.edits.get? p.location).map Edit.bare := next.edits.get?_bare p.location
    simp only [hrevision, hget]
    split
    · split
      · rfl
      · cases next.edits.get? p.location with
        | none => rfl
        | some e =>
          obtain ⟨l, found, action, time⟩ := e
          cases action with
          | remove => rfl
          | replace node =>
            simp only [Option.map_some, Edit.bare, EditAction.bare]
            rw [Reaction.requests_bare]
            show (some { ownGraft p.here.graft.bare _ with node := node.bare }, next.bare) = _
            rw [ownGraft_bare]
            rfl
    · rfl

/-- Rules in turn. -/
theorem runRules_bare {rules : List Rule} (hrules : ∀ r ∈ rules, r.IgnoresSpans) (phase : Phase)
    (p : Path) (s : WalkState) :
    runRules phase rules p.bare s.bare
      = (runRules phase rules p s).map (Option.map Graft.bare) WalkState.bare := by
  induction rules generalizing p s with
  | nil => rfl
  | cons r rules ih =>
    rw [runRules, runRules, runRule_bare (hrules r List.mem_cons_self)]
    generalize runRule r phase p s = out
    obtain ⟨g, s'⟩ := out
    cases g with
    | none => rfl
    | some g =>
      exact ih (fun r' hr' => hrules r' (List.mem_cons_of_mem r hr'))
        { p with here := { p.here with graft := g } } s'

/-- The walk with `f` applied to its value, and with the bare state. -/
def Walked.bare {α : Type} (f : α → α) (w : Walked α) : Walked α :=
  w.map (Except.map f) WalkState.bare

/-- What holds of a visit holds of it within the scope of a directive. -/
theorem underSuppression_bare {α : Type} {f : α → α} {visit visit' : WalkState → Walked α}
    (hvisit : ∀ s, visit' s.bare = (visit s).bare f) (scope : Option Suppression) (s : WalkState) :
    underSuppression scope visit' s.bare = (underSuppression scope visit s).bare f := by
  have hunder : s.bare.under scope = (s.under scope).bare := by
    cases scope with
    | none => rfl
    | some suppression => rfl
  have hleave : ∀ t : WalkState, t.bare.leave scope = (t.leave scope).bare := by
    intro t
    cases scope with
    | none => rfl
    | some suppression => rfl
  rw [underSuppression_eq, underSuppression_eq, hunder, hvisit]
  exact congrArg _ (hleave (visit (s.under scope)).2)

/-- The children in turn. -/
theorem walkChildren_bare (visit visit' : Nat → Node → WalkState → Walked (Option Node))
    (hvisit : ∀ i c s, visit' i c.bare s.bare = (visit i c s).bare (Option.map Node.bare))
    (i : Nat) (pending : Option Suppression) (cs : List Node) (s : WalkState) :
    walkChildren visit' i pending (cs.map Node.bare) s.bare
      = (walkChildren visit i pending cs s).bare (List.map Node.bare) := by
  induction cs generalizing i pending s with
  | nil => rfl
  | cons c cs ih =>
    rw [List.map_cons, walkChildren, walkChildren]
    -- A directive is the text of a comment, so the child comes under the same one.
    simp only [Node.commentText?_bare, underSuppression_bare (hvisit i c)]
    generalize underSuppression _ (visit i c) s = first
    obtain ⟨result, s₁⟩ := first
    cases result with
    | error e => rfl
    | ok walked =>
      simp only [Walked.bare, Prod.map, Except.map]
      rw [ih]
      generalize walkChildren visit (i + 1) _ cs s₁ = rest
      obtain ⟨result, s₂⟩ := rest
      cases result with
      | error e => rfl
      | ok rest => simp [Walked.bare, Except.map, Option.toList_map]

/-- **The induction over the walk.** The walk of a bare node is the bare form of the walk of the
    node. -/
theorem walk_bare {registry : Registry} (hregistry : registry.IgnoresSpans)
    (maxDepth budget : Nat) (g : Graft) (l : Location) (above : List Step) (s : WalkState) :
    walk registry maxDepth budget g.bare l (above.map Step.bare) s.bare
      = (walk registry maxDepth budget g l above s).bare (Option.map Node.bare) := by
  have hrules : ∀ kind, ∀ r ∈ registry.lookup kind, r.IgnoresSpans :=
    fun kind r hr => hregistry r (Registry.mem_lookup.mp hr).1
  induction budget generalizing g l above s with
  | zero =>
    have hkind : g.bare.node.kind = g.node.kind := g.node.kind_bare
    rw [walk, walk, hkind]
    split
    · rfl
    · rfl
  | succ budget ih =>
    have hkind : g.bare.node.kind = g.node.kind := g.node.kind_bare
    rw [walk, walk, hkind, g.isLoop_bare]
    split
    · split
      · rfl
      · have henter : runRules .enter (registry.lookup g.node.kind)
            ⟨⟨g.bare, g.bare.node, l⟩, above.map Step.bare⟩ s.bare = _ :=
          runRules_bare (hrules g.node.kind) .enter ⟨⟨g, g.node, l⟩, above⟩ s
        simp only [henter]
        generalize runRules .enter (registry.lookup g.node.kind) _ s = out
        obtain ⟨entered, s₁⟩ := out
        cases entered with
        | none => rfl
        | some entered =>
          -- The steps above the children are bare again, so that the hypothesis applies to them.
          have hchildren := walkChildren_bare
            (fun i c => walk registry maxDepth budget (entered.child i c) (l.child i)
              (⟨entered, g.node, l⟩ :: above))
            (fun i c => walk registry maxDepth budget (entered.bare.child i c) (l.child i)
              (⟨entered.bare, g.bare.node, l⟩ :: above.map Step.bare))
            (fun i c => ih (entered.child i c) (l.child i) (⟨entered, g.node, l⟩ :: above))
            0 none entered.node.children s₁
          have hbelow : entered.bare.node.children = entered.node.children.map Node.bare :=
            entered.node.children_bare
          simp only [Prod.map, Option.map_some, hbelow, hchildren]
          generalize walkChildren _ 0 none entered.node.children s₁ = below
          obtain ⟨result, s₂⟩ := below
          cases result with
          | error e => rfl
          | ok children =>
            have hleft : Graft.ofNode (entered.bare.node.withChildren (children.map Node.bare))
                = (Graft.ofNode (entered.node.withChildren children)).bare :=
              congrArg Graft.ofNode (entered.node.bare_withChildren children).symm
            have hexit : runRules .exit (registry.lookup g.node.kind)
                ⟨⟨(Graft.ofNode (entered.node.withChildren children)).bare, g.bare.node, l⟩,
                  above.map Step.bare⟩ s₂.bare = _ :=
              runRules_bare (hrules g.node.kind) .exit
                ⟨⟨Graft.ofNode (entered.node.withChildren children), g.node, l⟩, above⟩ s₂
            simp only [Walked.bare, Prod.map, Except.map, hleft, hexit]
            generalize runRules .exit (registry.lookup g.node.kind) _ s₂ = out
            obtain ⟨last, s₃⟩ := out
            cases last with
            | none => rfl
            | some last => rfl
    · rfl

/-- The walk of a whole tree. -/
theorem traverse_bare {registry : Registry} (hregistry : registry.IgnoresSpans) (maxDepth : Nat)
    (tree : Node) (c : Collector) :
    traverse registry maxDepth tree.bare c.bare
      = (traverse registry maxDepth tree c).bare (Option.map Node.bare) := by
  have hstart : WalkState.start c.bare = (WalkState.start c).bare := by
    simp [WalkState.start, WalkState.bare, EditQueue.bare, EditQueue.empty]
  unfold traverse
  rw [hstart]
  exact walk_bare hregistry maxDepth (maxDepth + 1) (Graft.ofNode tree) Location.root [] (.start c)

end TreeLint
