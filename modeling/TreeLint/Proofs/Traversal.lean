import Mathlib
import TreeLint.Proofs.Directive
import TreeLint.Proofs.EditQueue
import TreeLint.Rule.Traversal

namespace TreeLint

/-!
# What holds along a walk

A walk changes its state in two ways only: a callback reacts, or a suppression comes into force for
the walk of one child and is lifted after it. A relation between states that both keep therefore
holds between the beginning and the end of every walk.

* `asked_runRule` says all that asking one rule can come to.
* `walkBelow` is the walk of the children of a node. `walk_of_removed`, `walk_of_failed` and
  `walk_of_left` put the walk of a node together from it and from what the rules make of the node.
* `walk_ok_cases` and `walkChildren_cons_ok` take a successful walk apart.
* `ScopedLaw` collects what has to be shown of a relation `R` between states, given what is known of
  the node that is being walked (the condition `C`), and `ScopedLaw.rel_walk` is the induction over
  the walk, done once.
* `WalkLaw` is the simpler law for relations and conditions to which suppressions do not matter.
-/

/-! ### One rule -/

/-- The state after rule `r` was asked about the node of `p`, if it has something to say. -/
inductive Asked (r : Rule) (phase : Phase) (p : Path) (s : WalkState) :
    Option Graft × WalkState → Prop where
  /-- The rule has no callback for the phase, does not look at the kind, or is disabled. -/
  | skipped : Asked r phase p s (some p.here.graft, s)
  /-- The node stays as it is. -/
  | left (callback : Callback) (h : r.callback? phase = some callback) :
      Asked r phase p s (some p.here.graft, s.react r phase p (callback p s.collector))
  /-- The queue holds a replacement of the node. -/
  | replaced (callback : Callback) (h : r.callback? phase = some callback) (e : Edit)
      (graft : Graft)
      (he : (s.react r phase p (callback p s.collector)).edits.get? p.location = some e)
      (hreplace : e.action = .replace graft.node) :
      Asked r phase p s (some graft, s.react r phase p (callback p s.collector))
  /-- The queue holds the removal of the node. -/
  | removed (callback : Callback) (h : r.callback? phase = some callback) (e : Edit)
      (he : (s.react r phase p (callback p s.collector)).edits.get? p.location = some e)
      (hremove : e.action = .remove) :
      Asked r phase p s (none, s.react r phase p (callback p s.collector))

/-- Asking a rule comes to one of the four. -/
theorem asked_runRule (r : Rule) (phase : Phase) (p : Path) (s : WalkState) :
    Asked r phase p s (runRule r phase p s) := by
  unfold runRule
  cases hcb : r.callback? phase with
  | none => exact .skipped
  | some callback =>
    simp only
    split
    · split
      · exact .left callback hcb
      · cases he : (s.react r phase p (callback p s.collector)).edits.get? p.location with
        | none => exact .left callback hcb
        | some e =>
          simp only
          cases ha : e.action with
          | remove => exact .removed callback hcb e he ha
          | replace node => exact .replaced callback hcb e _ he ha
    · exact .skipped

/-! ### Edits stay queued -/

/-- What is queued somewhere stays queued there after a request. -/
theorem extends_request (steps : List Step) (q : EditQueue) (r : EditRequest) :
    q.Extends (WalkState.request steps q r) := by
  unfold WalkState.request
  split
  · exact q.extends_push _ _ _
  · exact EditQueue.Extends.refl q

/-- It stays queued after several requests. -/
theorem extends_foldl_request (steps : List Step) (q : EditQueue) (requests : List EditRequest) :
    q.Extends (requests.foldl (WalkState.request steps) q) := by
  induction requests generalizing q with
  | nil => exact EditQueue.Extends.refl q
  | cons r requests ih => exact (extends_request steps q r).trans (ih _)

/-- It stays queued after a reaction. -/
theorem extends_react (s : WalkState) (r : Rule) (phase : Phase) (p : Path) (reaction : Reaction) :
    s.edits.Extends (s.react r phase p reaction).edits :=
  extends_foldl_request _ _ _

/-- It stays queued after a rule is asked. -/
theorem extends_runRule (r : Rule) (phase : Phase) (p : Path) (s : WalkState) :
    s.edits.Extends (runRule r phase p s).2.edits := by
  have hasked := asked_runRule r phase p s
  generalize runRule r phase p s = out at hasked ⊢
  cases hasked with
  | skipped => exact EditQueue.Extends.refl _
  | left => exact extends_react s r phase p _
  | replaced => exact extends_react s r phase p _
  | removed => exact extends_react s r phase p _

/-- It stays queued after several rules are asked. -/
theorem extends_runRules (phase : Phase) (rules : List Rule) (p : Path) (s : WalkState) :
    s.edits.Extends (runRules phase rules p s).2.edits := by
  induction rules generalizing p s with
  | nil => exact EditQueue.Extends.refl _
  | cons r rules ih =>
    have hr := extends_runRule r phase p s
    rw [runRules]
    split
    · rename_i s' heq
      rw [heq] at hr
      exact hr
    · rename_i g s' heq
      rw [heq] at hr
      exact hr.trans (ih _ _)

/-- The node that rules leave is the present one, unless an edit is queued at its location. -/
theorem runRules_node {phase : Phase} {rules : List Rule} {p : Path} {s : WalkState} {g : Graft}
    (h : (runRules phase rules p s).1 = some g) :
    g.node = p.node ∨ ((runRules phase rules p s).2.edits.get? p.location).isSome = true := by
  induction rules generalizing p s with
  | nil =>
    rw [runRules, Option.some.injEq] at h
    exact .inl (h ▸ rfl)
  | cons r rules ih =>
    have hasked := asked_runRule r phase p s
    rw [runRules] at h ⊢
    split at h
    · exact absurd h.symm (Option.some_ne_none g)
    · rename_i g' s' heq
      rw [heq] at hasked
      -- An edit that is queued already when the next rule is asked stays in the queue.
      have hstays := extends_runRules phase rules { p with here := { p.here with graft := g' } } s'
      have hnext := ih h
      cases hasked with
      | skipped => exact hnext
      | left => exact hnext
      | replaced callback hcb e graft he hreplace =>
        exact .inr (hstays p.location (by rw [he]; rfl))

/-! ### One level of a walk -/

/-- The walk of the children of a node, after the rules have left `entered` of what was `found`. -/
abbrev walkBelow (registry : Registry) (maxDepth budget : Nat) (found : Node) (entered : Graft)
    (l : Location) (above : List Step) : WalkState → Walked (List Node) :=
  walkChildren
    (fun i c => walk registry maxDepth budget (entered.child i c) (l.child i)
      (⟨entered, found, l⟩ :: above))
    0 none entered.node.children

section Level

variable {registry : Registry} {maxDepth budget : Nat} {g : Graft} {l : Location}
  {above : List Step} {s s₁ s₂ s₃ : WalkState}

/-- A node that the rules remove on entry is not gone into. -/
theorem walk_of_removed (hsupports : registry.supports g.node.kind = true)
    (hloop : g.isLoop above = false)
    (henter : runRules .enter (registry.lookup g.node.kind) ⟨⟨g, g.node, l⟩, above⟩ s
      = (none, s₁)) :
    walk registry maxDepth (budget + 1) g l above s = (.ok none, s₁) := by
  rw [walk, if_pos hsupports, hloop]
  simp only [Bool.false_eq_true, if_false, henter]

/-- The walk of a node fails if that of its children does. -/
theorem walk_of_failed (hsupports : registry.supports g.node.kind = true)
    (hloop : g.isLoop above = false) {entered : Graft} {err : Error}
    (henter : runRules .enter (registry.lookup g.node.kind) ⟨⟨g, g.node, l⟩, above⟩ s
      = (some entered, s₁))
    (hbelow : walkBelow registry maxDepth budget g.node entered l above s₁ = (.error err, s₂)) :
    walk registry maxDepth (budget + 1) g l above s = (.error err, s₂) := by
  rw [walk, if_pos hsupports, hloop]
  simp only [Bool.false_eq_true, if_false, henter, hbelow]

/-- **One level of a walk**: the rules on entry, the children of what they leave, and the rules on
    exit. -/
theorem walk_of_left (hsupports : registry.supports g.node.kind = true)
    (hloop : g.isLoop above = false) {entered : Graft} {children : List Node} {last : Option Graft}
    (henter : runRules .enter (registry.lookup g.node.kind) ⟨⟨g, g.node, l⟩, above⟩ s
      = (some entered, s₁))
    (hbelow : walkBelow registry maxDepth budget g.node entered l above s₁ = (.ok children, s₂))
    (hexit : runRules .exit (registry.lookup g.node.kind)
      ⟨⟨Graft.ofNode (entered.node.withChildren children), g.node, l⟩, above⟩ s₂ = (last, s₃)) :
    walk registry maxDepth (budget + 1) g l above s = (.ok (last.map (·.node)), s₃) := by
  rw [walk, if_pos hsupports, hloop]
  simp only [Bool.false_eq_true, if_false, henter, hbelow, hexit]
  cases last with
  | none => rfl
  | some last => rfl

end Level

/-! ### Walks that succeed -/

/-- **What a successful walk consists of.** Either a rule removed the node on entry, or the children
    of the node that the rules left were walked, and then the rules were asked once more. -/
theorem walk_ok_cases {registry : Registry} {maxDepth budget : Nat} {g : Graft} {l : Location}
    {above : List Step} {s s' : WalkState} {result : Option Node}
    (h : walk registry maxDepth budget g l above s = (.ok result, s')) :
    ∃ b, budget = b + 1 ∧
      ((runRules .enter (registry.lookup g.node.kind) ⟨⟨g, g.node, l⟩, above⟩ s = (none, s') ∧
          result = none) ∨
        ∃ entered s₁ children s₂ last,
          runRules .enter (registry.lookup g.node.kind) ⟨⟨g, g.node, l⟩, above⟩ s
            = (some entered, s₁) ∧
          walkBelow registry maxDepth b g.node entered l above s₁ = (.ok children, s₂) ∧
          runRules .exit (registry.lookup g.node.kind)
              ⟨⟨Graft.ofNode (entered.node.withChildren children), g.node, l⟩, above⟩ s₂
            = (last, s') ∧
          result = last.map (·.node)) := by
  -- Without budget a walk fails.
  cases budget with
  | zero =>
    rw [walk] at h
    split at h
    · simp at h
    · simp at h
  | succ b =>
    refine ⟨b, rfl, ?_⟩
    rw [walk] at h
    split at h
    · split at h
      · simp at h
      · simp only at h
        split at h
        · rename_i s₁ henter
          simp only [Prod.mk.injEq, Except.ok.injEq] at h
          obtain ⟨rfl, rfl⟩ := h
          exact .inl ⟨henter, rfl⟩
        · rename_i entered s₁ henter
          split at h
          · simp at h
          · rename_i children s₂ hchildren
            split at h
            · rename_i s₃ hexit
              simp only [Prod.mk.injEq, Except.ok.injEq] at h
              obtain ⟨rfl, rfl⟩ := h
              exact .inr ⟨entered, s₁, children, s₂, none, henter, hchildren, hexit, rfl⟩
            · rename_i last s₃ hexit
              simp only [Prod.mk.injEq, Except.ok.injEq] at h
              obtain ⟨rfl, rfl⟩ := h
              exact .inr ⟨entered, s₁, children, s₂, some last, henter, hchildren, hexit, rfl⟩
    · simp at h

/-- A suppression does not touch the queue. -/
theorem underSuppression_edits {α : Type} {scope : Option Suppression}
    {visit : WalkState → Walked α} {s s' : WalkState} {result : Except Error α}
    (h : underSuppression scope visit s = (result, s')) :
    ∃ t t', visit t = (result, t') ∧ t.edits = s.edits ∧ t'.edits = s'.edits := by
  cases scope with
  | none => exact ⟨s, s', h, rfl, rfl⟩
  | some suppression =>
    have hresult : (visit { s with collector := s.collector.suppress suppression }).1 = result :=
      congrArg Prod.fst h
    have hedits : (visit { s with collector := s.collector.suppress suppression }).2.edits
        = s'.edits := congrArg (fun out : Walked α => out.2.edits) h
    exact ⟨_, _, Prod.ext hresult rfl, rfl, hedits⟩

/-- A successful walk of children walks the first one and then the others. -/
theorem walkChildren_cons_ok {visit : Nat → Node → WalkState → Walked (Option Node)} {i : Nat}
    {pending : Option Suppression} {c : Node} {cs results : List Node} {s s' : WalkState}
    (h : walkChildren visit i pending (c :: cs) s = (.ok results, s')) :
    ∃ scope pending' walked s₁ rest, underSuppression scope (visit i c) s = (.ok walked, s₁) ∧
      walkChildren visit (i + 1) pending' cs s₁ = (.ok rest, s') ∧
      results = walked.toList ++ rest := by
  rw [walkChildren] at h
  split at h
  · simp at h
  · rename_i walked s₁ hfirst
    split at h
    · simp at h
    · rename_i rest s₂ hrest
      simp only [Prod.mk.injEq, Except.ok.injEq] at h
      obtain ⟨rfl, rfl⟩ := h
      exact ⟨_, _, walked, s₁, rest, hfirst, hrest, rfl⟩

/-! ### Relations that hold along a walk -/

/-- The state in which a child is walked that comes under `scope`. -/
def WalkState.under (s : WalkState) : Option Suppression → WalkState
  | none => s
  | some suppression => { s with collector := s.collector.suppress suppression }

/-- The state after the walk of a child that came under `scope`. -/
def WalkState.leave (s : WalkState) : Option Suppression → WalkState
  | none => s
  | some _ => { s with collector := s.collector.lift }

/-- A visit in the scope of a directive is made with the directive in force, which ends with it. -/
theorem underSuppression_eq {α : Type} (scope : Option Suppression)
    (visit : WalkState → Walked α) (s : WalkState) :
    underSuppression scope visit s
      = ((visit (s.under scope)).1, (visit (s.under scope)).2.leave scope) := by
  cases scope with
  | none => rfl
  | some suppression => rfl

/-- The directive that the next child comes under, if `pending` waits before it. -/
def scopeOf (pending : Option Suppression) (c : Node) : Option Suppression :=
  if c.commentText?.isSome then none else pending

section Children

variable {visit : Nat → Node → WalkState → Walked (Option Node)} {i : Nat}
  {pending : Option Suppression} {c : Node} {s s' : WalkState}

/-- An error of a child ends the walk of the children. -/
theorem walkChildren_cons_of_error {e : Error} (cs : List Node)
    (h : visit i c (s.under (scopeOf pending c)) = (.error e, s')) :
    walkChildren visit i pending (c :: cs) s = (.error e, s'.leave (scopeOf pending c)) := by
  have hfirst : underSuppression (scopeOf pending c) (visit i c) s
      = (.error e, s'.leave (scopeOf pending c)) := by
    rw [underSuppression_eq, h]
  unfold scopeOf at hfirst
  rw [walkChildren]
  simp only [hfirst]
  rfl

/-- After a child that was walked without an error the others follow. -/
theorem walkChildren_cons_of_ok {walked : Option Node} (cs : List Node)
    (h : visit i c (s.under (scopeOf pending c)) = (.ok walked, s')) :
    walkChildren visit i pending (c :: cs) s
      = (walkChildren visit (i + 1) (nextPending pending c) cs
          (s'.leave (scopeOf pending c))).map (Except.map (walked.toList ++ ·)) id := by
  have hfirst : underSuppression (scopeOf pending c) (visit i c) s
      = (.ok walked, s'.leave (scopeOf pending c)) := by
    rw [underSuppression_eq, h]
  have hnext : ((c.commentText?.bind Suppression.parse?)
      <|> (if c.commentText?.isSome then pending else none)) = nextPending pending c := rfl
  unfold scopeOf at hfirst ⊢
  rw [walkChildren]
  simp only [hfirst, hnext]
  generalize walkChildren visit (i + 1) (nextPending pending c) cs _ = out
  obtain ⟨result, s''⟩ := out
  cases result with
  | error e => rfl
  | ok rest => rfl

end Children

/-- What has to be shown so that `R` relates the states before and after every walk of a node for
    which `C` holds. `C` speaks of the node as the pass found it, its location, the steps above it
    and the present state, with the suppressions that are in force. -/
structure ScopedLaw (registry : Registry) (C : Node → Location → List Step → WalkState → Prop)
    (R : WalkState → WalkState → Prop) : Prop where
  refl : ∀ s, R s s
  trans : ∀ {a b c}, R a b → R b c → R a c
  /-- What is known of a node stays known as the walk goes on. -/
  stable : ∀ {found l above a b}, C found l above a → R a b → C found l above b
  /-- A reaction keeps `R`. -/
  react : ∀ {found l above s r phase callback}, r ∈ registry.rules →
    r.callback? phase = some callback → C found l above s → ∀ graft : Graft,
    R s (s.react r phase ⟨⟨graft, found, l⟩, above⟩
      (callback ⟨⟨graft, found, l⟩, above⟩ s.collector))
  /-- What is known of a node is known of each of the children when its turn comes, under the
      directive that it comes under. The children are those of the node itself, or of another one
      that an edit has put in its place. -/
  child : ∀ {found l above s}, C found l above s → ∀ entered : Graft,
    entered.node = found ∨ (s.edits.get? l).isSome = true →
    ∀ i c, entered.node.children[i]? = some c → ∀ s', R s s' →
      C c (l.child i) (⟨entered, found, l⟩ :: above) (s'.under (scopeAt entered.node.children i))
  /-- A suppression that is lifted again does not matter to `R`. -/
  leave : ∀ {a b scope}, R (a.under scope) b → R a (b.leave scope)

namespace ScopedLaw

variable {registry : Registry} {C : Node → Location → List Step → WalkState → Prop}
  {R : WalkState → WalkState → Prop} {found : Node} {l : Location} {above : List Step}
  {s : WalkState}

/-- Asking a rule keeps `R`. -/
theorem rel_runRule (law : ScopedLaw registry C R) (phase : Phase) {r : Rule}
    (hr : r ∈ registry.rules) (graft : Graft) (hC : C found l above s) :
    R s (runRule r phase ⟨⟨graft, found, l⟩, above⟩ s).2 := by
  have hasked := asked_runRule r phase ⟨⟨graft, found, l⟩, above⟩ s
  generalize runRule r phase ⟨⟨graft, found, l⟩, above⟩ s = out at hasked ⊢
  cases hasked with
  | skipped => exact law.refl s
  | left callback h => exact law.react hr h hC graft
  | replaced callback h => exact law.react hr h hC graft
  | removed callback h => exact law.react hr h hC graft

/-- Asking rules in turn keeps `R`. -/
theorem rel_runRules (law : ScopedLaw registry C R) (phase : Phase) {rules : List Rule}
    (hrules : ∀ r ∈ rules, r ∈ registry.rules) (graft : Graft) (hC : C found l above s) :
    R s (runRules phase rules ⟨⟨graft, found, l⟩, above⟩ s).2 := by
  induction rules generalizing graft s with
  | nil => exact law.refl s
  | cons r rules ih =>
    have hr := law.rel_runRule phase (hrules r List.mem_cons_self) graft hC
    rw [runRules]
    split
    · rename_i s' heq
      rw [heq] at hr
      exact hr
    · rename_i g s' heq
      rw [heq] at hr
      exact law.trans hr
        (ih (fun r' h => hrules r' (List.mem_cons_of_mem r h)) g (law.stable hC hr))

/-- Walking children keeps `R`, if walking each of them does. What is needed of a child has to be
    known of it whatever the walk of the children before it comes to. -/
theorem rel_walkChildren (law : ScopedLaw registry C R)
    (visit : Nat → Node → WalkState → Walked (Option Node)) {i : Nat} {cs : List Node}
    (hvisit : ∀ j c, cs[j]? = some c →
      ∀ s, C c (l.child (i + j)) above s → R s (visit (i + j) c s).2)
    (pending : Option Suppression)
    (hC : ∀ s', R s s' → ∀ j c, cs[j]? = some c →
      C c (l.child (i + j)) above (s'.under (scopeFrom pending cs j))) :
    R s (walkChildren visit i pending cs s).2 := by
  induction cs generalizing i pending s with
  | nil => exact law.refl s
  | cons c cs ih =>
    have hfirst := law.leave (hvisit 0 c rfl _ (hC s (law.refl s) 0 c rfl))
    rw [Nat.add_zero, scopeFrom_zero] at hfirst
    rw [walkChildren]
    simp only [underSuppression_eq]
    split
    · rename_i e s' heq
      rw [← (Prod.mk.inj heq).2]
      exact hfirst
    · rename_i walked s' heq
      rw [(Prod.mk.inj heq).2] at hfirst
      -- The other children have the numbers from `i + 1` on.
      have hrest := ih (i := i + 1) (s := s')
        (fun j d hd => by
          have := hvisit (j + 1) d hd
          rwa [show i + (j + 1) = i + 1 + j by omega] at this)
        (nextPending pending c)
        (fun s'' hs'' j d hd => by
          have := hC s'' (law.trans hfirst hs'') (j + 1) d hd
          rwa [show i + (j + 1) = i + 1 + j by omega, scopeFrom_succ] at this)
      have hnext : walkChildren visit (i + 1) ((c.commentText?.bind Suppression.parse?)
          <|> (if c.commentText?.isSome then pending else none)) cs s'
          = walkChildren visit (i + 1) (nextPending pending c) cs s' := rfl
      rw [hnext]
      split
      · rename_i e s'' heq'
        rw [heq'] at hrest
        exact law.trans hfirst hrest
      · rename_i rest s'' heq'
        rw [heq'] at hrest
        exact law.trans hfirst hrest

/-- **The induction over a walk.** A relation that obeys the law holds between the beginning and the
    end of the walk of a node, whatever its result is. -/
theorem rel_walk (law : ScopedLaw registry C R) (maxDepth budget : Nat) (g : Graft)
    (hC : C g.node l above s) : R s (walk registry maxDepth budget g l above s).2 := by
  -- Over the budget, in the order of the walk: rules on entry, children, rules on exit.
  induction budget generalizing g l above s with
  | zero =>
    rw [walk]
    split
    · exact law.refl s
    · exact law.refl s
  | succ budget ih =>
    have hlookup : ∀ r ∈ registry.lookup g.node.kind, r ∈ registry.rules :=
      fun r hr => (Registry.mem_lookup.mp hr).1
    rw [walk]
    split
    · split
      · exact law.refl s
      · have henter := law.rel_runRules .enter hlookup g hC
        simp only
        split
        · rename_i s' heq
          rw [heq] at henter
          exact henter
        · rename_i entered s' heq
          have hnode := runRules_node (g := entered) (by rw [heq])
          rw [heq] at henter hnode
          -- The rules may have put another node in place; its children are known all the same.
          have hC' := law.stable hC henter
          have hchildren := law.rel_walkChildren
            (fun i c => walk registry maxDepth budget (entered.child i c) (l.child i)
              (⟨entered, g.node, l⟩ :: above)) (i := 0)
            (fun j c _ s hs => ih _ hs) none
            (fun s'' hs'' j c hc => by
              rw [Nat.zero_add]
              exact law.child hC' entered hnode j c hc s'' hs'')
          split
          · rename_i e s'' heq'
            rw [heq'] at hchildren
            exact law.trans henter hchildren
          · rename_i children s'' heq'
            rw [heq'] at hchildren
            have hexit := law.rel_runRules .exit hlookup
              (Graft.ofNode (entered.node.withChildren children)) (law.stable hC' hchildren)
            split
            · rename_i s₃ heq₃
              rw [heq₃] at hexit
              exact law.trans henter (law.trans hchildren hexit)
            · rename_i last s₃ heq₃
              rw [heq₃] at hexit
              exact law.trans henter (law.trans hchildren hexit)
    · exact law.refl s

end ScopedLaw

/-- The same for a condition and a relation to which suppressions do not matter. -/
structure WalkLaw (registry : Registry) (C : Node → Location → List Step → WalkState → Prop)
    (R : WalkState → WalkState → Prop) : Prop where
  refl : ∀ s, R s s
  trans : ∀ {a b c}, R a b → R b c → R a c
  /-- What is known of a node stays known as the walk goes on. -/
  stable : ∀ {found l above a b}, C found l above a → R a b → C found l above b
  /-- A reaction keeps `R`. -/
  react : ∀ {found l above s r phase callback}, r ∈ registry.rules →
    r.callback? phase = some callback → C found l above s → ∀ graft : Graft,
    R s (s.react r phase ⟨⟨graft, found, l⟩, above⟩
      (callback ⟨⟨graft, found, l⟩, above⟩ s.collector))
  /-- What is known of a node is known of the children that are walked: those of the node itself,
      or of another one that an edit has put in its place. -/
  child : ∀ {found l above s}, C found l above s → ∀ entered : Graft,
    entered.node = found ∨ (s.edits.get? l).isSome = true →
    ∀ i c, entered.node.children[i]? = some c →
      C c (l.child i) (⟨entered, found, l⟩ :: above) s
  /-- A suppression does not matter to what is known. -/
  suppress : ∀ {found l above s}, C found l above s → ∀ suppression,
    C found l above { s with collector := s.collector.suppress suppression }
  /-- Nor does it matter to `R`, once it is lifted again. -/
  lift : ∀ {a b suppression}, R { a with collector := a.collector.suppress suppression } b →
    R a { b with collector := b.collector.lift }

namespace WalkLaw

variable {registry : Registry} {C : Node → Location → List Step → WalkState → Prop}
  {R : WalkState → WalkState → Prop} {l : Location} {above : List Step} {s : WalkState}

/-- What is known of a state is known within a scope. -/
theorem under (law : WalkLaw registry C R) {found : Node} (hC : C found l above s)
    (scope : Option Suppression) : C found l above (s.under scope) := by
  cases scope with
  | none => exact hC
  | some suppression => exact law.suppress hC suppression

/-- A law that says nothing of scopes holds in them. -/
theorem toScopedLaw (law : WalkLaw registry C R) : ScopedLaw registry C R where
  refl := law.refl
  trans := law.trans
  stable := law.stable
  react := law.react
  child hC entered hentered i c hc _ hR :=
    law.under (law.stable (law.child hC entered hentered i c hc) hR) _
  leave := by
    intro a b scope hR
    cases scope with
    | none => exact hR
    | some suppression => exact law.lift hR

/-- Walking children keeps `R`, if walking each of them does. -/
theorem rel_walkChildren (law : WalkLaw registry C R)
    (visit : Nat → Node → WalkState → Walked (Option Node)) {i : Nat} {cs : List Node}
    (hvisit : ∀ j c, cs[j]? = some c →
      ∀ s, C c (l.child (i + j)) above s → R s (visit (i + j) c s).2)
    (pending : Option Suppression)
    (hC : ∀ j c, cs[j]? = some c → C c (l.child (i + j)) above s) :
    R s (walkChildren visit i pending cs s).2 :=
  law.toScopedLaw.rel_walkChildren visit hvisit pending fun _ hR j c hc =>
    law.under (law.stable (hC j c hc) hR) _

/-- **The induction over a walk**, for laws to which suppressions do not matter. -/
theorem rel_walk (law : WalkLaw registry C R) (maxDepth budget : Nat) (g : Graft)
    (hC : C g.node l above s) : R s (walk registry maxDepth budget g l above s).2 :=
  law.toScopedLaw.rel_walk maxDepth budget g hC

end WalkLaw

end TreeLint
