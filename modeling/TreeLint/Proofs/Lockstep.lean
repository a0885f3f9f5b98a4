import Mathlib
import TreeLint.Proofs.Traversal

namespace TreeLint

/-!
# Two walks side by side

Some facts compare two walks: with other settings, from another state, or with other rules. The two
go through the children of a node at the same pace, so what relates them is shown child by child.

* `Coupled`: the two walks fail with one error or succeed with related values, in related states.
* `ScopeClosed`: suppressions that come into force and are lifted in both keep the relation.
* `coupled_walkChildren` is the step from the children to the list of them.
* `Lockstep` is the law for two walks of the same nodes whose rules answer alike.
  `answersAlike_runRule` is about one rule, `answersAlike_runRules_map` about rules in turn, and
  `Lockstep.coupled_walk` is the induction over the walks.
-/

/-- Two walks with the same outcome: one error, or values that `V` relates. The states in which they
    end are related by `S`. -/
inductive Coupled {α β : Type} (S : WalkState → WalkState → Prop) (V : α → β → Prop) :
    Walked α → Walked β → Prop where
  | failed {s t : WalkState} (e : Error) (hS : S s t) : Coupled S V (.error e, s) (.error e, t)
  | ended {s t : WalkState} {a : α} {b : β} (hV : V a b) (hS : S s t) :
      Coupled S V (.ok a, s) (.ok b, t)

/-- The relation is kept when the same suppression comes into force, and when it is lifted. -/
structure ScopeClosed (S : WalkState → WalkState → Prop) : Prop where
  under : ∀ {s t}, S s t → ∀ scope, S (s.under scope) (t.under scope)
  leave : ∀ {s t}, S s t → ∀ scope, S (s.leave scope) (t.leave scope)

section Coupling

variable {S : WalkState → WalkState → Prop} {s t : WalkState}

theorem Coupled.eq {α : Type} {x y : Walked α} (h : Coupled S Eq x y) : x.1 = y.1 ∧ S x.2 y.2 := by
  cases h with
  | failed e hS => exact ⟨rfl, hS⟩
  | ended hV hS => exact ⟨congrArg Except.ok hV, hS⟩

theorem Coupled.underSuppression {α β : Type} {V : α → β → Prop} (hclosed : ScopeClosed S)
    {visit : WalkState → Walked α} {visit' : WalkState → Walked β}
    (hvisit : ∀ s t, S s t → Coupled S V (visit s) (visit' t)) (scope : Option Suppression)
    (h : S s t) :
    Coupled S V (underSuppression scope visit s) (underSuppression scope visit' t) := by
  rw [underSuppression_eq, underSuppression_eq]
  have hcoupled := hvisit _ _ (hclosed.under h scope)
  generalize visit (s.under scope) = out at hcoupled ⊢
  generalize visit' (t.under scope) = out' at hcoupled ⊢
  cases hcoupled with
  | failed e hS => exact .failed e (hclosed.leave hS scope)
  | ended hV hS => exact .ended hV (hclosed.leave hS scope)

/-- **The children in turn.** If the walks of each child are coupled, so are the walks of the list.
    `V c` relates what the walks leave of the child `c`, and `W cs` what they leave of `cs`. -/
theorem coupled_walkChildren (hclosed : ScopeClosed S)
    {V : Node → Option Node → Option Node → Prop} {W : List Node → List Node → List Node → Prop}
    (hnil : W [] [] [])
    (hcons : ∀ {c a b cs as bs}, V c a b → W cs as bs →
      W (c :: cs) (a.toList ++ as) (b.toList ++ bs))
    {visit visit' : Nat → Node → WalkState → Walked (Option Node)} {i : Nat} {cs : List Node}
    (hvisit : ∀ j, ∀ c ∈ cs, ∀ s t, S s t → Coupled S (V c) (visit j c s) (visit' j c t))
    (pending : Option Suppression) (h : S s t) :
    Coupled S (W cs) (walkChildren visit i pending cs s) (walkChildren visit' i pending cs t) := by
  induction cs generalizing i pending s t with
  | nil => exact .ended hnil h
  | cons c cs ih =>
    -- The children are the same in both walks, and so are the directives that they come under.
    have hfirst := Coupled.underSuppression hclosed (hvisit i c List.mem_cons_self)
      (if c.commentText?.isSome then none else pending) h
    rw [walkChildren, walkChildren]
    generalize underSuppression (if c.commentText?.isSome then none else pending) (visit i c) s
      = out at hfirst ⊢
    generalize underSuppression (if c.commentText?.isSome then none else pending) (visit' i c) t
      = out' at hfirst ⊢
    cases hfirst with
    | failed e hS => exact .failed e hS
    | @ended s₁ t₁ a b hV hS =>
      have hrest := ih (i := i + 1) (fun j d hd => hvisit j d (List.mem_cons_of_mem c hd))
        ((c.commentText?.bind Suppression.parse?)
          <|> (if c.commentText?.isSome then pending else none)) hS
      simp only
      generalize walkChildren visit (i + 1) _ cs s₁ = rest at hrest ⊢
      generalize walkChildren visit' (i + 1) _ cs t₁ = rest' at hrest ⊢
      cases hrest with
      | failed e hS => exact .failed e hS
      | ended hW hS => exact .ended (hcons hV hW) hS

end Coupling

/-! ### Walks of the same nodes -/

/-- What asking rules comes to, in two related states: the same node, and related states. -/
def AnswersAlike (S : WalkState → WalkState → Prop) (out out' : Option Graft × WalkState) : Prop :=
  out.1 = out'.1 ∧ S out.2 out'.2

/-- What has to be shown so that walks of a node with two registries end alike, if they begin in
    related states. -/
structure Lockstep (registry registry' : Registry) (S : WalkState → WalkState → Prop) : Prop where
  closed : ScopeClosed S
  supports : ∀ kind, registry.supports kind = registry'.supports kind
  rules : ∀ {s t}, S s t → ∀ phase kind p,
    AnswersAlike S (runRules phase (registry.lookup kind) p s)
      (runRules phase (registry'.lookup kind) p t)

/-- A rule without a callback for the phase is passed over. -/
theorem runRule_of_none {r : Rule} {phase : Phase} (h : r.callback? phase = none) (p : Path)
    (s : WalkState) : runRule r phase p s = (some p.here.graft, s) := by
  unfold runRule
  rw [h]

/-- **One rule.** If callbacks of two rules ask for the same edits in related states, and the states
    after their reactions are related, then the rules answer alike: the queues decide, and these are
    the same. -/
theorem answersAlike_runRule {S : WalkState → WalkState → Prop}
    (hedits : ∀ {s t}, S s t → s.edits = t.edits) {r r' : Rule} {phase : Phase}
    {callback callback' : Callback} (hcallback : r.callback? phase = some callback)
    (hcallback' : r'.callback? phase = some callback') {p : Path} {s t : WalkState}
    (haccepts : r.accepts p.kind = r'.accepts p.kind)
    (henabled : s.collector.isEnabled r.category = t.collector.isEnabled r'.category)
    (hrequests : (callback p s.collector).requests p = (callback' p t.collector).requests p)
    (hreact : S s t → S (s.react r phase p (callback p s.collector))
      (t.react r' phase p (callback' p t.collector)))
    (h : S s t) : AnswersAlike S (runRule r phase p s) (runRule r' phase p t) := by
  have hnext := hreact h
  unfold runRule
  rw [hcallback, hcallback']
  simp only [haccepts, henabled, hrequests, hedits h, hedits hnext]
  split
  · split
    · exact ⟨rfl, hnext⟩
    · split
      · exact ⟨rfl, hnext⟩
      · split
        · exact ⟨rfl, hnext⟩
        · exact ⟨rfl, hnext⟩
  · exact ⟨rfl, h⟩

/-- If the first rules answer alike, and the rules after them too, then so do all of them: both
    walks go on with one node. -/
theorem AnswersAlike.runRules_cons {S : WalkState → WalkState → Prop} {phase : Phase} {r r' : Rule}
    {rules rules' : List Rule} {p : Path} {s t : WalkState}
    (hfirst : AnswersAlike S (runRule r phase p s) (runRule r' phase p t))
    (hrest : ∀ p s t, S s t →
      AnswersAlike S (runRules phase rules p s) (runRules phase rules' p t)) :
    AnswersAlike S (runRules phase (r :: rules) p s) (runRules phase (r' :: rules') p t) := by
  obtain ⟨hgraft, hstates⟩ := hfirst
  rw [runRules, runRules]
  generalize runRule r phase p s = out at hgraft hstates ⊢
  generalize runRule r' phase p t = out' at hgraft hstates ⊢
  obtain ⟨g, s'⟩ := out
  obtain ⟨g', t'⟩ := out'
  obtain rfl : g = g' := hgraft
  cases g with
  | none => exact ⟨rfl, hstates⟩
  | some g => exact hrest _ s' t' hstates

/-- Rules that answer alike one by one answer alike in turn. The rules of the second walk are those
    of the first one under `f`. -/
theorem answersAlike_runRules_map {S : WalkState → WalkState → Prop} {phase : Phase}
    {rules : List Rule} {f : Rule → Rule}
    (hrules : ∀ r ∈ rules, ∀ p s t, S s t → AnswersAlike S (runRule r phase p s)
      (runRule (f r) phase p t))
    (p : Path) {s t : WalkState} (h : S s t) :
    AnswersAlike S (runRules phase rules p s) (runRules phase (rules.map f) p t) := by
  induction rules generalizing p s t with
  | nil => exact ⟨rfl, h⟩
  | cons r rules ih =>
    exact (hrules r List.mem_cons_self p s t h).runRules_cons fun p _ _ h' =>
      ih (fun r' hr' => hrules r' (List.mem_cons_of_mem r hr')) p h'

/-- The same for two walks with one list of rules. -/
theorem answersAlike_runRules {S : WalkState → WalkState → Prop} {phase : Phase}
    {rules : List Rule}
    (hrules : ∀ r ∈ rules, ∀ p s t, S s t → AnswersAlike S (runRule r phase p s)
      (runRule r phase p t))
    (p : Path) {s t : WalkState} (h : S s t) :
    AnswersAlike S (runRules phase rules p s) (runRules phase rules p t) := by
  have hmap := answersAlike_runRules_map (f := id) hrules p h
  rwa [List.map_id] at hmap

namespace Lockstep

variable {registry registry' : Registry} {S : WalkState → WalkState → Prop}

/-- **The induction over two walks.** From related states on, walks of the same node fail alike or
    leave the same node, and end in related states. -/
theorem coupled_walk (law : Lockstep registry registry' S) (maxDepth budget : Nat) (g : Graft)
    (l : Location) (above : List Step) {s t : WalkState} (h : S s t) :
    Coupled S Eq (walk registry maxDepth budget g l above s)
      (walk registry' maxDepth budget g l above t) := by
  induction budget generalizing g l above s t with
  | zero =>
    rw [walk, walk, law.supports]
    split
    · exact .failed _ h
    · exact .failed _ h
  | succ budget ih =>
    rw [walk, walk, law.supports]
    split
    · split
      · exact .failed _ h
      · simp only
        -- The rules leave one node before the children, so that both walks go on with it.
        have henter := law.rules h .enter g.node.kind ⟨⟨g, g.node, l⟩, above⟩
        generalize runRules .enter (registry.lookup g.node.kind) _ s = out at henter ⊢
        generalize runRules .enter (registry'.lookup g.node.kind) _ t = out' at henter ⊢
        obtain ⟨entered, s₁⟩ := out
        obtain ⟨entered', t₁⟩ := out'
        obtain ⟨rfl, hS⟩ : entered = entered' ∧ S s₁ t₁ := henter
        cases entered with
        | none => exact .ended rfl hS
        | some entered =>
          -- The children of both walks are those of one node, and so are the steps above them.
          have hchildren : Coupled S Eq
              (walkChildren (fun i c => walk registry maxDepth budget (entered.child i c)
                (l.child i) (⟨entered, g.node, l⟩ :: above)) 0 none entered.node.children s₁)
              (walkChildren (fun i c => walk registry' maxDepth budget (entered.child i c)
                (l.child i) (⟨entered, g.node, l⟩ :: above)) 0 none entered.node.children t₁) :=
            coupled_walkChildren law.closed (V := fun _ => Eq) (W := fun _ => Eq) rfl
              (by rintro c a b cs as bs rfl rfl; rfl)
              (fun i c _ s t h => ih (entered.child i c) (l.child i) _ h) none hS
          simp only
          generalize walkChildren _ 0 none entered.node.children s₁ = below at hchildren ⊢
          generalize walkChildren _ 0 none entered.node.children t₁ = below' at hchildren ⊢
          cases hchildren with
          | failed e hS => exact .failed e hS
          | @ended s₂ t₂ children children' hV hS =>
            obtain rfl : children = children' := hV
            have hexit := law.rules hS .exit g.node.kind
              ⟨⟨Graft.ofNode (entered.node.withChildren children), g.node, l⟩, above⟩
            simp only
            generalize runRules .exit (registry.lookup g.node.kind) _ s₂ = out at hexit ⊢
            generalize runRules .exit (registry'.lookup g.node.kind) _ t₂ = out' at hexit ⊢
            obtain ⟨last, s₃⟩ := out
            obtain ⟨last', t₃⟩ := out'
            obtain ⟨rfl, hS⟩ : last = last' ∧ S s₃ t₃ := hexit
            cases last with
            | none => exact .ended rfl hS
            | some last => exact .ended rfl hS
    · exact .failed _ h

/-- The same for whole trees. -/
theorem coupled_traverse (law : Lockstep registry registry' S) (maxDepth : Nat) (tree : Node)
    {c c' : Collector} (h : S (.start c) (.start c')) :
    Coupled S Eq (traverse registry maxDepth tree c) (traverse registry' maxDepth tree c') :=
  law.coupled_walk maxDepth (maxDepth + 1) (Graft.ofNode tree) Location.root [] h

end Lockstep

end TreeLint
