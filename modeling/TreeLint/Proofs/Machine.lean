import Mathlib
import TreeLint.Proofs.Scope

namespace TreeLint

/-!
# Every walk ends

`walk` is a recursion on the number of levels that the limit still allows. This number is no part of
what a walk does: here the same walk is a machine that takes one small step after the other, asks at
most one rule in each of them, keeps the nodes that are not yet left on a stack and looks at nothing
but the location to see that a node is too deep. Nothing in the machine says that it halts.

* `Machine.step` is one step, and `Machine.Steps` are any number of them.
* `Machine.steps_runRules`, `Machine.steps_walkChildren` and `Machine.steps_walk` say that the
  machine does what `runRules`, `walkChildren` and `walk` do, whatever stands on the stack.
* `Machine.Within` says that no callback was invoked below the limit. `Machine.Within.step` is about
  one step, `Machine.Within.steps` about a run.
* `traverse_halts`: whatever the callbacks do, the machine halts, with the result of `traverse`.
-/

/-! ### The machine -/

/-- What a walk has to do next. -/
inductive Task where
  /-- Walk the node `g` at `l`, below the steps `above`. -/
  | enter (g : Graft) (l : Location) (above : List Step)
  /-- Ask rules in turn about the node of `p`. -/
  | ask (phase : Phase) (rules : List Rule) (p : Path)
  /-- Go on with the next child of the innermost open node. -/
  | next
  /-- Return from the walk of a node. -/
  | back (result : Except Error (Option Node))

/-- A node whose children are being walked. -/
structure OpenNode where
  here : Step
  above : List Step
  /-- The directive that the child that is being walked comes under. -/
  scope : Option Suppression
  /-- The directive that waits before the children that are left. -/
  pending : Option Suppression
  /-- The index of the first child that is left. -/
  index : Nat
  /-- The children that are left. -/
  rest : List Node
  /-- What the children walked so far have come to. -/
  walked : List Node

/-- A walk in progress. The innermost open node stands first. -/
structure Machine where
  task : Task
  opened : List OpenNode
  state : WalkState

/-- A child is one level deeper. -/
theorem Location.depth_child (l : Location) (i : Nat) : (l.child i).depth = l.depth + 1 := by
  rw [depth, indices_child, List.length_append, List.length_singleton, depth]

namespace Machine

/-- The beginning of the walk of a tree. -/
def start (tree : Node) (c : Collector) : Machine :=
  ⟨.enter (Graft.ofNode tree) Location.root [], [], WalkState.start c⟩

/-- The end of a walk. -/
def halted (out : Walked (Option Node)) : Machine := ⟨.back out.1, [], out.2⟩

/-- What follows the children of an entered node: the rules are asked once more, unless a child has
    failed. -/
def leaving (registry : Registry) (here : Step) (above : List Step) :
    Except Error (List Node) → Task
  | .error e => .back (.error e)
  | .ok children =>
    let left := Graft.ofNode (here.graft.node.withChildren children)
    .ask .exit (registry.lookup here.found.kind) ⟨{ here with graft := left }, above⟩

/-- One step of a walk. There is none when the walk has returned from its root. -/
def step (registry : Registry) (maxDepth : Nat) : Machine → Option Machine
  | ⟨.enter g l above, os, s⟩ =>
    if registry.supports g.node.kind then
      if maxDepth < l.depth then
        some ⟨.back (.error (.malformedTree l (.tooDeep maxDepth))), os, s⟩
      else if g.isLoop above then some ⟨.back (.error (.malformedTree l .ownAncestor)), os, s⟩
      else some ⟨.ask .enter (registry.lookup g.node.kind) ⟨⟨g, g.node, l⟩, above⟩, os, s⟩
    else some ⟨.back (.error (.unhandledKind g.node.kind registryComponent)), os, s⟩
  | ⟨.ask phase (r :: rs) p, os, s⟩ =>
    let out := runRule r phase p s
    some ⟨out.1.elim (.back (.ok none))
      fun g => .ask phase rs { p with here := { p.here with graft := g } }, os, out.2⟩
  | ⟨.ask .enter [] p, os, s⟩ =>
    some ⟨.next, ⟨p.here, p.above, none, none, 0, p.node.children, []⟩ :: os, s⟩
  | ⟨.ask .exit [] p, os, s⟩ => some ⟨.back (.ok (some p.node)), os, s⟩
  | ⟨.next, ⟨here, above, _, pending, i, c :: cs, walked⟩ :: os, s⟩ =>
    let scope := scopeOf pending c
    some ⟨.enter (here.graft.child i c) (here.location.child i) (here :: above),
      ⟨here, above, scope, nextPending pending c, i + 1, cs, walked⟩ :: os, s.under scope⟩
  | ⟨.next, ⟨here, above, _, _, _, [], walked⟩ :: os, s⟩ =>
    some ⟨leaving registry here above (.ok walked), os, s⟩
  | ⟨.back (.error e), o :: os, s⟩ => some ⟨.back (.error e), os, s.leave o.scope⟩
  | ⟨.back (.ok result), o :: os, s⟩ =>
    some ⟨.next, { o with walked := o.walked ++ result.toList } :: os, s.leave o.scope⟩
  | ⟨.next, [], _⟩ => none
  | ⟨.back _, [], _⟩ => none

/-- Any number of steps. -/
def Steps (registry : Registry) (maxDepth : Nat) : Machine → Machine → Prop :=
  Relation.ReflTransGen fun m m' => m.step registry maxDepth = some m'

variable {registry : Registry} {maxDepth : Nat}

/-- One step is a run of steps. -/
theorem Steps.one {m m' : Machine} (h : m.step registry maxDepth = some m') :
    Steps registry maxDepth m m' :=
  Relation.ReflTransGen.single h

/-- Runs of steps join. -/
theorem Steps.trans {m m' m'' : Machine} (h : Steps registry maxDepth m m')
    (h' : Steps registry maxDepth m' m'') : Steps registry maxDepth m m'' :=
  Relation.ReflTransGen.trans h h'

/-! ### What the machine does -/

/-- The machine asks rules in turn, as `runRules` does. -/
theorem steps_runRules (phase : Phase) (rules : List Rule) (p : Path) (os : List OpenNode)
    (s : WalkState) :
    Steps registry maxDepth ⟨.ask phase rules p, os, s⟩
      ⟨(runRules phase rules p s).1.elim (.back (.ok none))
        fun g => .ask phase [] { p with here := { p.here with graft := g } }, os,
        (runRules phase rules p s).2⟩ := by
  induction rules generalizing p s with
  | nil => exact .refl
  | cons r rules ih =>
    have hstep : step registry maxDepth ⟨.ask phase (r :: rules) p, os, s⟩
        = some ⟨(runRule r phase p s).1.elim (.back (.ok none))
            fun g => .ask phase rules { p with here := { p.here with graft := g } }, os,
            (runRule r phase p s).2⟩ := rfl
    refine (Steps.one hstep).trans ?_
    rw [runRules]
    generalize runRule r phase p s = out
    obtain ⟨g, s'⟩ := out
    cases g with
    | none => exact .refl
    | some g => exact ih _ _

/-- The machine walks children one after the other, as `walkChildren` does, if it walks each child
    as `visit` does. -/
theorem steps_walkChildren (here : Step) (above : List Step)
    {visit : Nat → Node → WalkState → Walked (Option Node)}
    (hvisit : ∀ i c os s, Steps registry maxDepth
      ⟨.enter (here.graft.child i c) (here.location.child i) (here :: above), os, s⟩
      ⟨.back (visit i c s).1, os, (visit i c s).2⟩)
    (scope pending : Option Suppression) (i : Nat) (cs walked : List Node) (os : List OpenNode)
    (s : WalkState) :
    Steps registry maxDepth ⟨.next, ⟨here, above, scope, pending, i, cs, walked⟩ :: os, s⟩
      ⟨leaving registry here above ((walkChildren visit i pending cs s).1.map (walked ++ ·)), os,
        (walkChildren visit i pending cs s).2⟩ := by
  induction cs generalizing scope pending i walked s with
  | nil =>
    have hstep : step registry maxDepth
        ⟨.next, ⟨here, above, scope, pending, i, [], walked⟩ :: os, s⟩
        = some ⟨leaving registry here above (.ok walked), os, s⟩ := rfl
    rw [walkChildren, Except.map, List.append_nil]
    exact .one hstep
  | cons c cs ih =>
    have hstep : step registry maxDepth
        ⟨.next, ⟨here, above, scope, pending, i, c :: cs, walked⟩ :: os, s⟩
        = some ⟨.enter (here.graft.child i c) (here.location.child i) (here :: above),
            ⟨here, above, scopeOf pending c, nextPending pending c, i + 1, cs, walked⟩ :: os,
            s.under (scopeOf pending c)⟩ := rfl
    refine (Steps.one hstep).trans ((hvisit i c _ _).trans ?_)
    cases hfirst : visit i c (s.under (scopeOf pending c)) with
    | mk result s' =>
      cases result with
      | error e =>
        rw [walkChildren_cons_of_error cs hfirst]
        exact .one rfl
      | ok result =>
        rw [walkChildren_cons_of_ok cs hfirst]
        refine (Steps.one rfl).trans ?_
        have hrest := ih (scopeOf pending c) (nextPending pending c) (i + 1)
          (walked ++ result.toList) (s'.leave (scopeOf pending c))
        -- An error of a later child passes through, and the results of the others are appended.
        generalize walkChildren visit (i + 1) (nextPending pending c) cs _ = out at hrest ⊢
        obtain ⟨rest, s''⟩ := out
        cases rest with
        | error e => exact hrest
        | ok rest =>
          simp only [Except.map, List.append_assoc] at hrest
          exact hrest

/-- **The machine walks**: whatever stands on the stack, it comes back from a node with what `walk`
    makes of it. -/
theorem steps_walk {budget : Nat} {g : Graft} {l : Location} {above : List Step}
    (hbudget : l.depth + budget = maxDepth + 1) (os : List OpenNode) (s : WalkState) :
    Steps registry maxDepth ⟨.enter g l above, os, s⟩
      ⟨.back (walk registry maxDepth budget g l above s).1, os,
        (walk registry maxDepth budget g l above s).2⟩ := by
  -- The machine does not know the levels that are left, but the depth of the location tells them.
  induction budget generalizing g l above os s with
  | zero =>
    have hdeep : maxDepth < l.depth := by omega
    refine .one ?_
    rw [step, walk, if_pos hdeep]
    split
    · rfl
    · rfl
  | succ budget ih =>
    have hdeep : ¬ maxDepth < l.depth := by omega
    by_cases hsupports : registry.supports g.node.kind = true
    · by_cases hloop : g.isLoop above = true
      · refine .one ?_
        rw [step, walk, if_pos hsupports, if_pos hsupports, if_neg hdeep, if_pos hloop,
          if_pos hloop]
      · have hstep : step registry maxDepth ⟨.enter g l above, os, s⟩
            = some ⟨.ask .enter (registry.lookup g.node.kind) ⟨⟨g, g.node, l⟩, above⟩, os, s⟩ := by
          rw [step, if_pos hsupports, if_neg hdeep, if_neg hloop]
        refine (Steps.one hstep).trans ((steps_runRules _ _ _ _ _).trans ?_)
        rw [walk, if_pos hsupports, if_neg hloop]
        simp only
        generalize runRules .enter (registry.lookup g.node.kind) ⟨⟨g, g.node, l⟩, above⟩ s = out
        obtain ⟨entered, s₁⟩ := out
        cases entered with
        | none => exact .refl
        | some entered =>
          -- The children are those that the rules have left, of which nothing is known: what ends
          -- the descent is that they are one level deeper.
          have hvisit : ∀ i c os s, Steps registry maxDepth
              ⟨.enter (entered.child i c) (l.child i) (⟨entered, g.node, l⟩ :: above), os, s⟩
              ⟨.back (walk registry maxDepth budget (entered.child i c) (l.child i)
                  (⟨entered, g.node, l⟩ :: above) s).1, os,
                (walk registry maxDepth budget (entered.child i c) (l.child i)
                  (⟨entered, g.node, l⟩ :: above) s).2⟩ := by
            intro i c os s
            refine ih ?_ os s
            rw [Location.depth_child]
            omega
          have hchildren := steps_walkChildren ⟨entered, g.node, l⟩ above hvisit none none 0
            entered.node.children [] os s₁
          refine (Steps.one rfl).trans (hchildren.trans ?_)
          simp only
          generalize walkChildren _ 0 none entered.node.children s₁ = out
          obtain ⟨children, s₂⟩ := out
          cases children with
          | error e => exact .refl
          | ok children =>
            refine (steps_runRules .exit _ _ os s₂).trans ?_
            simp only [List.nil_append]
            generalize runRules .exit _ _ s₂ = out
            obtain ⟨last, s₃⟩ := out
            cases last with
            | none => exact .refl
            | some last => exact .one rfl
    · refine .one ?_
      rw [step, walk, if_neg hsupports, if_neg hsupports]

/-! ### The machine halts -/

/-- A machine that has halted makes no more steps. -/
theorem step_halted (registry : Registry) (maxDepth : Nat) (out : Walked (Option Node)) :
    (halted out).step registry maxDepth = none := by
  obtain ⟨result, s⟩ := out
  cases result with
  | error e => rfl
  | ok n => rfl

/-- **The machine gets to the result of the recursion** and halts there. -/
theorem steps_traverse (registry : Registry) (maxDepth : Nat) (tree : Node) (c : Collector) :
    Steps registry maxDepth (start tree c) (halted (traverse registry maxDepth tree c)) :=
  steps_walk (Nat.zero_add _) [] (WalkState.start c)

/-- There is no infinite run from a machine that can halt: a machine has one next state only. -/
theorem Steps.acc {m m' : Machine} (h : Steps registry maxDepth m m')
    (hend : m'.step registry maxDepth = none) :
    Acc (fun b a => a.step registry maxDepth = some b) m := by
  induction h using Relation.ReflTransGen.head_induction_on with
  | refl =>
    refine ⟨_, fun b hb => ?_⟩
    rw [hend] at hb
    cases hb
  | head hstep _ ih =>
    refine ⟨_, fun b hb => ?_⟩
    rw [hstep] at hb
    obtain rfl := Option.some.inj hb
    exact ih

/-- Two runs from the same machine that cannot go on end alike. -/
theorem Steps.eq_of_ends {m a b : Machine} (ha : Steps registry maxDepth m a)
    (hb : Steps registry maxDepth m b) (haend : a.step registry maxDepth = none)
    (hbend : b.step registry maxDepth = none) : a = b := by
  have hunique : Relator.RightUnique fun m m' : Machine => m.step registry maxDepth = some m' :=
    fun m x y hx hy => Option.some.inj (hx.symm.trans hy)
  have hstuck : ∀ {x y : Machine}, x.step registry maxDepth = none →
      Steps registry maxDepth x y → x = y := by
    intro x y hx hxy
    rcases Relation.ReflTransGen.cases_head hxy with heq | ⟨z, hz, -⟩
    · exact heq
    · rw [hx] at hz
      cases hz
  rcases Relation.ReflTransGen.total_of_right_unique hunique ha hb with hab | hba
  · exact hstuck haend hab
  · exact (hstuck hbend hba).symm

end Machine

/-! ### Nothing is asked below the limit -/

/-- Rules are asked within the limit. -/
def Task.Within (maxDepth : Nat) : Task → Prop
  | .ask _ _ p => p.location.depth ≤ maxDepth
  | _ => True

namespace Machine

variable {registry : Registry} {maxDepth : Nat}

/-- Callbacks have been invoked within the limit only, and so have the rules that are asked now and
    those of the open nodes. -/
structure Within (maxDepth : Nat) (m : Machine) : Prop where
  task : m.task.Within maxDepth
  opened : ∀ o ∈ m.opened, o.here.location.depth ≤ maxDepth
  log : ∀ v ∈ m.state.log, v.path.location.depth ≤ maxDepth

/-- The machine starts with the root alone. -/
theorem within_start (maxDepth : Nat) (tree : Node) (c : Collector) :
    (start tree c).Within maxDepth :=
  ⟨trivial, fun _ h => absurd h List.not_mem_nil, fun _ h => absurd h List.not_mem_nil⟩

/-- Asking a rule invokes callbacks at the node of the path only. -/
theorem path_of_mem_log_runRule {r : Rule} {phase : Phase} {p : Path} {s : WalkState} {v : Visit}
    (hv : v ∈ (runRule r phase p s).2.log) : v ∈ s.log ∨ v.path = p := by
  have hasked := asked_runRule r phase p s
  generalize runRule r phase p s = out at hasked hv
  have hreact : ∀ reaction, v ∈ (s.react r phase p reaction).log → v ∈ s.log ∨ v.path = p := by
    intro reaction hv
    rw [log_react_eq] at hv
    rcases List.mem_append.mp hv with hv | hv
    · exact .inl hv
    · rw [List.mem_singleton.mp hv]
      exact .inr rfl
  cases hasked with
  | skipped => exact .inl hv
  | left => exact hreact _ hv
  | replaced => exact hreact _ hv
  | removed => exact hreact _ hv

/-- Opening a scope invokes nothing. -/
theorem log_under (s : WalkState) (scope : Option Suppression) : (s.under scope).log = s.log := by
  cases scope with
  | none => rfl
  | some suppression => rfl

/-- Closing it invokes nothing either. -/
theorem log_leave (s : WalkState) (scope : Option Suppression) : (s.leave scope).log = s.log := by
  cases scope with
  | none => rfl
  | some suppression => rfl

/-- **One step stays within the limit**: rules are asked about a node only after its depth has been
    checked. -/
theorem Within.step {m m' : Machine} (h : m.Within maxDepth)
    (hstep : m.step registry maxDepth = some m') : m'.Within maxDepth := by
  obtain ⟨task, os, s⟩ := m
  obtain ⟨htask, hopened, hlog⟩ := h
  -- By the task. The log grows only where a rule is asked, and nodes are opened only after that.
  cases task with
  | enter g l above =>
    rw [Machine.step] at hstep
    split at hstep
    · split at hstep
      · cases hstep
        exact ⟨trivial, hopened, hlog⟩
      · rename_i hdepth
        split at hstep
        · cases hstep
          exact ⟨trivial, hopened, hlog⟩
        · -- Only from here on are rules asked about the node.
          cases hstep
          exact ⟨Nat.le_of_not_lt hdepth, hopened, hlog⟩
    · cases hstep
      exact ⟨trivial, hopened, hlog⟩
  | ask phase rules p =>
    have hp : p.location.depth ≤ maxDepth := htask
    cases rules with
    | cons r rules =>
      rw [Machine.step] at hstep
      cases hstep
      refine ⟨?_, hopened, ?_⟩
      · cases (runRule r phase p s).1 with
        | none => trivial
        | some g => exact hp
      · -- The one callback that this step may invoke is given the path `p`.
        intro v hv
        rcases path_of_mem_log_runRule hv with hv | hv
        · exact hlog v hv
        · rw [hv]
          exact hp
    | nil =>
      cases phase with
      | enter =>
        cases hstep
        refine ⟨trivial, ?_, hlog⟩
        intro o ho
        rcases List.mem_cons.mp ho with rfl | ho
        · exact hp
        · exact hopened o ho
      | exit =>
        cases hstep
        exact ⟨trivial, hopened, hlog⟩
  | next =>
    cases os with
    -- A machine with nothing opened has no children to go on with.
    | nil => cases hstep
    | cons o os =>
      obtain ⟨ho, hos⟩ := List.forall_mem_cons.mp hopened
      obtain ⟨here, above, scope, pending, i, rest, walked⟩ := o
      cases rest with
      | nil =>
        cases hstep
        exact ⟨ho, hos, hlog⟩
      | cons c cs =>
        cases hstep
        refine ⟨trivial, List.forall_mem_cons.mpr ⟨ho, hos⟩, ?_⟩
        rw [log_under]
        exact hlog
  | back result =>
    cases os with
    | nil => cases result <;> cases hstep
    | cons o os =>
      obtain ⟨ho, hos⟩ := List.forall_mem_cons.mp hopened
      cases result with
      | error e =>
        cases hstep
        refine ⟨trivial, hos, ?_⟩
        rw [log_leave]
        exact hlog
      | ok n =>
        cases hstep
        refine ⟨trivial, List.forall_mem_cons.mpr ⟨ho, hos⟩, ?_⟩
        rw [log_leave]
        exact hlog

/-- **A run stays within the limit.** -/
theorem Within.steps {m m' : Machine} (h : m.Within maxDepth)
    (hsteps : Steps registry maxDepth m m') : m'.Within maxDepth := by
  induction hsteps with
  | refl => exact h
  | tail _ hstep ih => exact ih.step hstep

end Machine

/-- **Every walk ends.** Whatever the tree, the limit and the callbacks are, and however callbacks
    grow the nodes that are about to be walked: no run of the machine goes on forever, it gets to
    the result of `traverse`, which is a tree or an error, and stops nowhere else, and at no time
    has a callback been invoked at a location deeper than the limit. -/
theorem traverse_halts (registry : Registry) (maxDepth : Nat) (tree : Node) (c : Collector) :
    Acc (fun m' m => m.step registry maxDepth = some m') (Machine.start tree c) ∧
      Machine.Steps registry maxDepth (Machine.start tree c)
        (.halted (traverse registry maxDepth tree c)) ∧
      (∀ m, Machine.Steps registry maxDepth (Machine.start tree c) m →
        (m.step registry maxDepth = none ↔ m = .halted (traverse registry maxDepth tree c)) ∧
          ∀ v ∈ m.state.visits.toList, v.path.location.depth ≤ maxDepth) ∧
      ∀ v ∈ (traverse registry maxDepth tree c).2.visits.toList,
        v.path.location.depth ≤ maxDepth := by
  have hsteps := Machine.steps_traverse registry maxDepth tree c
  have hend := Machine.step_halted registry maxDepth (traverse registry maxDepth tree c)
  refine ⟨hsteps.acc hend, hsteps, fun m hm => ⟨⟨fun hstuck => ?_, ?_⟩, ?_⟩, ?_⟩
  · exact hm.eq_of_ends hsteps hstuck hend
  · rintro rfl
    exact hend
  · exact ((Machine.within_start maxDepth tree c).steps hm).log
  · exact ((Machine.within_start maxDepth tree c).steps hsteps).log

/-- A rule that wraps each node that it is asked about, so that every child is wrapped again. -/
def wrapping : Rule where
  name := "wrapping"
  category := ⟨"wrapping"⟩
  accepts _ := true
  enter := some fun p _ =>
    { transform := .replace (Graft.ofNode (.ofPayload (.element "div" [] false) [p.node])) }
  exit := none

def wrapRegistry : Registry where
  rules := [wrapping]
  supports _ := true
  names_nodup := by decide

/-- Wrapping goes on down to the limit, and then the walk ends. -/
theorem traverse_halts_wrapping :
    let tree : Node := .ofPayload .document []
    let c := Collector.new .describeOnly none
    (traverse wrapRegistry 3 tree c).1 = .error (.malformedTree ⟨[0, 0, 0, 0]⟩ (.tooDeep 3)) ∧
      (traverse wrapRegistry 3 tree c).2.visits.toList.map (fun v => v.path.location.depth)
        = [0, 1, 2, 3] ∧
      ∀ m, Machine.Steps wrapRegistry 3 (Machine.start tree c) m →
        ∀ v ∈ m.state.visits.toList, v.path.location.depth ≤ 3 := by
  intro tree c
  refine ⟨rfl, by decide +kernel, fun m hm => ?_⟩
  exact ((traverse_halts wrapRegistry 3 tree c).2.2.1 m hm).2

end TreeLint
