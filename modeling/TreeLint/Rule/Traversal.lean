import TreeLint.Rule.Registry

namespace TreeLint

/-!
# Walking a tree

The walk visits every node depth first. At each node

1. the enter callbacks of the matching rules run in registration order, each on the node as the
   rules before it left it;
2. the children are walked, taken from the node as step 1 left it;
3. the exit callbacks run on the node with the children as step 2 left them.

Edits are queued, never made. The walk carries a `WalkState` and gives it back also when it fails.

* `runRule` asks one rule about a node, `runRules` several in turn.
* `walkChildren` walks a list of children and keeps track of suppression directives.
* `walk` walks a node. It recurses on the number of levels that the depth limit still allows, so it
  ends even when enter callbacks keep growing the tree below themselves.
* `WalkState.visits` lists the invocations of callbacks in order, each with what it saw.
-/

/-- One invocation of a callback and what it saw. -/
structure Visit where
  rule : String
  phase : Phase
  path : Path
  /-- What had been collected before the invocation. -/
  collector : Collector
  /-- The edits that had been queued before the invocation. -/
  edits : EditQueue
  /-- The diagnostics that the invocation added. -/
  added : List Diagnostic

/-- What a walk has gathered so far. -/
structure WalkState where
  collector : Collector
  edits : EditQueue
  /-- Some callback has cancelled the run. -/
  cancelled : Bool
  /-- The invocations of callbacks, in order. -/
  visits : Array Visit

namespace WalkState

/-- The state in which a walk begins. -/
def start (c : Collector) : WalkState := ⟨c, EditQueue.empty, false, #[]⟩

/-- Queue the edit of a request made at the first of the steps. A request that goes above the root
    is dropped. -/
def request (steps : List Step) (q : EditQueue) (r : EditRequest) : EditQueue :=
  match steps[r.levels]? with
  | some s => q.push s.location s.found r.action
  | none => q

end WalkState

/-- The edits of a reaction of the callback at `p`: those it asks for, then its transform, unless
    that gives a node equal to the present one. -/
def Reaction.requests (r : Reaction) (p : Path) : List EditRequest :=
  match r.transform with
  | .replace g => if g.node == p.node then r.edits else r.edits ++ [.replace 0 g]
  | _ => r.edits

/-- The last graft that was asked for in the place of the node itself, or else the present one. -/
def ownGraft (present : Graft) (requests : List EditRequest) : Graft :=
  requests.foldl
    (fun g r =>
      match r with
      | .replace 0 own => own
      | _ => g)
    present

/-- Carry out the reaction of rule `r` at `p`. -/
def WalkState.react (s : WalkState) (r : Rule) (phase : Phase) (p : Path) (reaction : Reaction) :
    WalkState :=
  let collector := s.collector.addAll reaction.findings
  { collector
    edits := (reaction.requests p).foldl (request (p.here :: p.above)) s.edits
    cancelled := s.cancelled || reaction.cancels
    visits := s.visits.push {
      rule := r.name
      phase
      path := p
      collector := s.collector
      edits := s.edits
      added := collector.diagnostics.drop s.collector.diagnostics.length } }

/-- Ask rule `r` about the node of `p`. The result is the node to go on with; there is none when
    the node is to be removed. -/
def runRule (r : Rule) (phase : Phase) (p : Path) (s : WalkState) : Option Graft × WalkState :=
  match r.callback? phase with
  | none => (some p.here.graft, s)
  | some callback =>
    -- An earlier rule may have changed the kind of the node.
    if r.accepts p.kind && s.collector.isEnabled r.category then
      let reaction := callback p s.collector
      let next := s.react r phase p reaction
      if next.edits.revision = s.edits.revision then (some p.here.graft, next)
      else
        match next.edits.get? p.location with
        | none => (some p.here.graft, next)
        | some e =>
          match e.action with
          | .remove => (none, next)
          | .replace node =>
            (some { ownGraft p.here.graft (reaction.requests p) with node }, next)
    else (some p.here.graft, s)

/-- Ask rules in turn about the node of `p`, each about what the one before it left. -/
def runRules (phase : Phase) : List Rule → Path → WalkState → Option Graft × WalkState
  | [], p, s => (some p.here.graft, s)
  | r :: rs, p, s =>
    match runRule r phase p s with
    | (none, s) => (none, s)
    | (some g, s) => runRules phase rs { p with here := { p.here with graft := g } } s

/-- The result of a walk: an error or a value, and the state that it was reached in. -/
abbrev Walked (α : Type) := Except Error α × WalkState

/-- Walk one child with a suppression in force, if there is one. -/
def underSuppression {α : Type} (scope : Option Suppression) (visit : WalkState → Walked α)
    (s : WalkState) : Walked α :=
  match scope with
  | none => visit s
  | some suppression =>
    let (result, s) := visit { s with collector := s.collector.suppress suppression }
    (result, { s with collector := s.collector.lift })

/-- Walk children in order. `pending` is the directive that the next child that is no comment comes
    under; `visit` walks the child with the given index. -/
def walkChildren (visit : Nat → Node → WalkState → Walked (Option Node)) :
    Nat → Option Suppression → List Node → WalkState → Walked (List Node)
  | _, _, [], s => (.ok [], s)
  | i, pending, c :: cs, s =>
    let directive := c.commentText?.bind Suppression.parse?
    let scope := if c.commentText?.isSome then none else pending
    let left := if c.commentText?.isSome then pending else none
    match underSuppression scope (visit i c) s with
    | (.error e, s) => (.error e, s)
    | (.ok walked, s) =>
      match walkChildren visit (i + 1) (directive <|> left) cs s with
      | (.error e, s) => (.error e, s)
      | (.ok rest, s) => (.ok (walked.toList ++ rest), s)

/-- Who refuses a node of an unsupported kind. -/
def registryComponent : String := "the rule registry"

/-- Walk the node `g` at `location`, below the steps `above`. `budget` is the number of levels,
    counting this one, that the limit `maxDepth` still allows. The result is the node as the pass
    leaves it; there is none when the pass removes it. -/
def walk (registry : Registry) (maxDepth : Nat) :
    (budget : Nat) → Graft → Location → List Step → WalkState → Walked (Option Node)
  | 0, g, location, _, s =>
    if registry.supports g.node.kind then
      (.error (.malformedTree location (.tooDeep maxDepth)), s)
    else (.error (.unhandledKind g.node.kind registryComponent), s)
  | budget + 1, g, location, above, s =>
    if registry.supports g.node.kind then
      if g.isLoop above then (.error (.malformedTree location .ownAncestor), s)
      else
        let rules := registry.lookup g.node.kind
        match runRules .enter rules ⟨⟨g, g.node, location⟩, above⟩ s with
        | (none, s) => (.ok none, s)
        | (some entered, s) =>
          let here : Step := ⟨entered, g.node, location⟩
          let visit (i : Nat) (c : Node) : WalkState → Walked (Option Node) :=
            walk registry maxDepth budget (entered.child i c) (location.child i) (here :: above)
          match walkChildren visit 0 none entered.node.children s with
          | (.error e, s) => (.error e, s)
          | (.ok children, s) =>
            let left := Graft.ofNode (entered.node.withChildren children)
            match runRules .exit rules ⟨⟨left, g.node, location⟩, above⟩ s with
            | (none, s) => (.ok none, s)
            | (some last, s) => (.ok (some last.node), s)
    else (.error (.unhandledKind g.node.kind registryComponent), s)

/-- Walk a whole tree. The result is the tree as the pass leaves it; there is none when the pass
    removes the root. -/
def traverse (registry : Registry) (maxDepth : Nat) (tree : Node) (c : Collector) :
    Walked (Option Node) :=
  walk registry maxDepth (maxDepth + 1) (Graft.ofNode tree) Location.root [] (WalkState.start c)

end TreeLint
