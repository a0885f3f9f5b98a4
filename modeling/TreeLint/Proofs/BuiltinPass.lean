import Mathlib
import TreeLint.Proofs.BuiltinRules
import TreeLint.Proofs.FreshPass

namespace TreeLint.Builtin

/-!
# One pass of the built-in rules

With fixes on and all categories enabled, one pass of the built-in rules over a tree queues edits
whose substitution is `onePass` of the tree.

* `Passed` is the invariant of the walk of a node: outside the node the queue is as it was, and the
  edits inside turn the node into the one that the walk leaves. `PassedAll` says the same about
  children.
* `passedAll_walkChildren` is the step from the nodes to their parent, and `passed_walk` the
  induction over the tree.
* `traverse_onePass` is the result for a whole tree.
-/

/-- What the walk leaves of a node: nothing of an empty comment, else the node after one pass. -/
def view (n : Node) : Option Node := if isEmptyComment n then none else some (onePass n)

theorem onePassAll_cons (c : Node) (cs : List Node) :
    onePassAll (c :: cs) = (view c).toList ++ onePassAll cs := by
  rw [onePassAll, view]
  split
  · rfl
  · rfl

/-- The trees that the rules are meant for: their nodes can be addressed, and their type parameters
    have no children. -/
structure Regular (n : Node) : Prop where
  addressable : n.Addressable
  parameters : ∀ m ∈ n.parts, m.kind = .typeParameter → m.children = []

theorem Regular.of_mem {n m : Node} (h : Regular n) (hm : m ∈ n.parts) : Regular m :=
  ⟨h.addressable.of_mem hm, fun k hk => h.parameters k (Node.mem_parts_trans hk hm)⟩

/-- Only a node without children gets another payload. -/
theorem Regular.children_eq_nil {n : Node} (h : Regular n)
    (htidy : tidyPayload n.children.isEmpty n.payload ≠ n.payload) : n.children = [] := by
  have hparameter := h.parameters n (Node.mem_parts_self n)
  obtain ⟨payload, span, cs⟩ := n
  cases payload with
  | element tag attributes selfClosing =>
    cases cs with
    | nil => rfl
    | cons c cs => exact absurd (by simp [tidyPayload]) htidy
  | typeParameter name constraint default => exact hparameter rfl
  | _ => exact absurd rfl htidy

/-! ### The invariant -/

/-- What the walk of the node `n` at `l` does, from the state `s` on. -/
structure Passed (l : Location) (n : Node) (s : WalkState) (out : Walked (Option Node)) : Prop where
  result : out.1 = .ok (view n)
  steady : s.Steady out.2
  outside : ∀ m, l.contains m = false → out.2.edits.get? m = s.edits.get? m
  inside : n.substitute out.2.edits.actionAt l = view n

/-- What the walk of the children `cs` of the node at `l` does, the first having index `i`. -/
structure PassedAll (l : Location) (i : Nat) (cs : List Node) (s : WalkState)
    (out : Walked (List Node)) : Prop where
  result : out.1 = .ok (onePassAll cs)
  steady : s.Steady out.2
  outside : ∀ m, (∀ p ∈ cs.zipIdx i, (l.child p.2).contains m = false) →
    out.2.edits.get? m = s.edits.get? m
  inside : Node.substituteAll out.2.edits.actionAt l i cs = onePassAll cs

section Invariant

variable {l : Location} {n : Node} {s : WalkState}

/-- A walk passes a node when its last edit is one of the node itself, to what the walk leaves. -/
theorem Passed.of_push {out : Walked (Option Node)} {q : EditQueue} {action : EditAction}
    (hresult : out.1 = .ok (view n)) (hsteady : s.Steady out.2)
    (hedits : out.2.edits = q.push l n action)
    (houtside : ∀ m, l.contains m = false → q.get? m = s.edits.get? m)
    (haction : action.result? = view n) : Passed l n s out := by
  refine ⟨hresult, hsteady, ?_, ?_⟩
  · intro m hm
    have hne : m ≠ l := Location.ne_of_contains_eq_false hm
    rw [hedits, EditQueue.get?_push_of_ne q n action hne]
    exact houtside m hm
  · have hat : out.2.edits.actionAt l = some action := by
      rw [hedits, EditQueue.actionAt, EditQueue.get?_push_self]
      rfl
    rw [Node.substitute_of_some hat, haction]

/-- A suppression changes what is reported, not what is fixed. -/
theorem passed_underSuppression {visit : WalkState → Walked (Option Node)}
    (hvisit : ∀ s, Fixes s.collector → s.edits.Untouched l → Passed l n s (visit s))
    (scope : Option Suppression) (hs : Fixes s.collector) (hl : s.edits.Untouched l) :
    Passed l n s (underSuppression scope visit s) := by
  cases scope with
  | none => exact hvisit s hs hl
  | some suppression =>
    obtain ⟨hresult, hsteady, houtside, hinside⟩ :=
      hvisit { s with collector := s.collector.suppress suppression } hs hl
    exact ⟨hresult, ⟨hsteady.mode, hsteady.enabled, hsteady.cancelled⟩, houtside, hinside⟩

/-- **The children in turn.** If the walk of each child passes it, the walk of all passes them. -/
theorem passedAll_walkChildren {visit : Nat → Node → WalkState → Walked (Option Node)} {i : Nat}
    {cs : List Node} (hlength : i + cs.length ≤ 2 ^ 32)
    (hvisit : ∀ p ∈ cs.zipIdx i, ∀ s, Fixes s.collector → s.edits.Untouched (l.child p.2) →
      Passed (l.child p.2) p.1 s (visit p.2 p.1 s))
    (pending : Option Suppression) (hs : Fixes s.collector)
    (hl : ∀ p ∈ cs.zipIdx i, s.edits.Untouched (l.child p.2)) :
    PassedAll l i cs s (walkChildren visit i pending cs s) := by
  induction cs generalizing i pending s with
  | nil => exact ⟨rfl, .refl s, fun _ _ => rfl, rfl⟩
  | cons c cs ih =>
    rw [List.zipIdx_cons] at hvisit hl
    rw [List.length_cons] at hlength
    -- The regions of two children have no location in common.
    have hapart : ∀ p ∈ cs.zipIdx (i + 1), ∀ m, (l.child i).contains m = true →
        (l.child p.2).contains m = false := by
      intro p hp m hm
      have hlower := List.le_snd_of_mem_zipIdx hp
      have hupper := List.snd_lt_add_of_mem_zipIdx hp
      exact Location.child_contains_eq_false (by omega) (by omega) (by omega) hm
    have hfirst := passed_underSuppression (hvisit (c, i) List.mem_cons_self)
      (if c.commentText?.isSome then none else pending) hs (hl (c, i) List.mem_cons_self)
    rw [walkChildren]
    generalize underSuppression (if c.commentText?.isSome then none else pending) (visit i c) s
      = out at hfirst ⊢
    obtain ⟨hresult, hsteady, houtside, hinside⟩ := hfirst
    obtain ⟨result, s'⟩ := out
    subst hresult
    have hrest := ih (i := i + 1) (s := s') (by omega)
      (fun p hp => hvisit p (List.mem_cons_of_mem _ hp))
      ((c.commentText?.bind Suppression.parse?)
        <|> (if c.commentText?.isSome then pending else none))
      (hs.of_steady hsteady)
      (fun p hp m hm => by
        have hm' : (l.child i).contains m = false := by
          rw [Bool.eq_false_iff]
          intro hm'
          exact absurd hm (by simp [hapart p hp m hm'])
        rw [houtside m hm']
        exact hl p (List.mem_cons_of_mem _ hp) m hm)
    simp only
    generalize walkChildren visit (i + 1) ((c.commentText?.bind Suppression.parse?)
        <|> (if c.commentText?.isSome then pending else none)) cs s' = rest at hrest ⊢
    obtain ⟨hresult', hsteady', houtside', hinside'⟩ := hrest
    obtain ⟨result', s''⟩ := rest
    subst hresult'
    refine ⟨?_, hsteady.trans hsteady', ?_, ?_⟩
    · rw [onePassAll_cons]
    · intro m hm
      rw [List.zipIdx_cons] at hm
      rw [houtside' m fun p hp => hm p (List.mem_cons_of_mem _ hp)]
      exact houtside m (hm (c, i) List.mem_cons_self)
    · -- The edits of the other children do not reach the first one.
      have hc : c.substitute s''.edits.actionAt (l.child i)
          = c.substitute s'.edits.actionAt (l.child i) := by
        refine Node.substitute_congr c fun m hm => ?_
        unfold EditQueue.actionAt
        rw [houtside' m fun p hp => hapart p hp m hm]
      rw [Node.substituteAll, hc, hinside, hinside', onePassAll_cons]

end Invariant

/-! ### The induction over the tree -/

section Walk

variable {n : Node} {l : Location} {above : List Step} {s : WalkState} {maxDepth budget : Nat}

theorem passed_walk_comment (hcomment : isEmptyComment n = true) (hs : Fixes s.collector) :
    Passed l n s (walk registry maxDepth (budget + 1) (Graft.ofNode n) l above s) := by
  have hview : view n = none := if_pos hcomment
  have hran : Ran s (runRules .enter (registry.lookup n.kind) (arrival n l above) s) _ _ :=
    ran_enter_comment hs hcomment
  obtain ⟨s₁, henter, hedits, hsteady⟩ := hran.exists_state
  rw [walk_of_removed rfl rfl henter]
  exact .of_push (congrArg Except.ok hview.symm) hsteady hedits (fun _ _ => rfl) hview.symm

/-- A node that gets another payload has no children to walk, and no members that could go. -/
theorem passed_walk_changed (hcomment : isEmptyComment n = false)
    (htidy : tidyPayload n.children.isEmpty n.payload ≠ n.payload) (hchildren : n.children = [])
    (hs : Fixes s.collector) :
    Passed l n s (walk registry maxDepth (budget + 1) (Graft.ofNode n) l above s) := by
  have hran : Ran s (runRules .enter (registry.lookup n.kind) (arrival n l above) s) _ _ :=
    ran_enter_changed hs htidy
  obtain ⟨s₁, henter, hedits, hsteady⟩ := hran.exists_state
  obtain ⟨payload, span, cs⟩ := n
  obtain rfl : cs = [] := hchildren
  have hmembers : ∀ payload, selectMembers payload [] = [] :=
    fun payload => List.sublist_nil.mp (selectMembers_sublist payload [])
  have hview : view ⟨payload, span, []⟩ = some ⟨tidyPayload true payload, span, []⟩ := by
    rw [view, if_neg (Bool.eq_false_iff.mp hcomment), onePass, onePassAll, hmembers]
    rfl
  have hkind : (Node.mk (tidyPayload true payload) span []).kind = (Node.mk payload span []).kind :=
    kind_tidyPayload payload true
  have hran' : Ran s₁ (runRules .exit (registry.lookup (Node.mk payload span []).kind)
      (departure ⟨tidyPayload true payload, span, []⟩ ⟨payload, span, []⟩ l above) s₁) _ _ :=
    ran_exit_same hkind (hmembers (tidyPayload true payload))
  obtain ⟨s₂, hexit, hedits', hsteady'⟩ := hran'.exists_state
  rw [walk_of_left rfl rfl henter rfl hexit]
  exact .of_push (congrArg Except.ok hview.symm) (hsteady.trans hsteady') (hedits'.trans hedits)
    (fun _ _ => rfl) hview.symm

/-- A tidy node is replaced after its children if it has members that have to go. -/
theorem passed_walk_same (hcomment : isEmptyComment n = false)
    (htidy : tidyPayload n.children.isEmpty n.payload = n.payload) (hs : Fixes s.collector)
    (hl : s.edits.Untouched l)
    (hbelow : ∀ s₁, Fixes s₁.collector → s₁.edits = s.edits →
      PassedAll l 0 n.children s₁
        (walkBelow registry maxDepth budget n (Graft.ofNode n) l above s₁)) :
    Passed l n s (walk registry maxDepth (budget + 1) (Graft.ofNode n) l above s) := by
  have hran : Ran s (runRules .enter (registry.lookup n.kind) (arrival n l above) s) _ _ :=
    ran_enter_same hcomment htidy
  obtain ⟨s₁, henter, hedits, hsteady⟩ := hran.exists_state
  have hbelow := hbelow s₁ (hs.of_steady hsteady) hedits
  generalize hwalk : walkBelow registry maxDepth budget n (Graft.ofNode n) l above s₁ = out
    at hbelow
  obtain ⟨result, s₂⟩ := out
  obtain ⟨hresult, hsteady', houtside, hinside⟩ := hbelow
  obtain rfl : result = .ok (onePassAll n.children) := hresult
  have hsteady₂ := hsteady.trans hsteady'
  have hview : view n
      = some ⟨n.payload, n.span, selectMembers n.payload (onePassAll n.children)⟩ := by
    rw [view, if_neg (Bool.eq_false_iff.mp hcomment)]
    obtain ⟨payload, span, cs⟩ := n
    rw [onePass]
    exact congrArg (fun payload' => some (Node.mk payload' span _)) htidy
  -- So far all new edits lie strictly below the node.
  have hbelow : ∀ m, l.isStrictAncestorOf m = false → s₂.edits.get? m = s.edits.get? m := by
    intro m hm
    rw [← hedits]
    refine houtside m fun p _ => Bool.eq_false_iff.mpr fun hp => ?_
    exact absurd (Location.isStrictAncestorOf_of_child_contains hp) (by simp [hm])
  have houtside₂ : ∀ m, l.contains m = false → s₂.edits.get? m = s.edits.get? m := by
    intro m hm
    refine hbelow m (Bool.eq_false_iff.mpr fun hm' => ?_)
    exact absurd (Location.contains_of_isStrictAncestorOf hm') (by simp [hm])
  by_cases hmembers : selectMembers n.payload (onePassAll n.children) = onePassAll n.children
  · have hran' : Ran s₂ (runRules .exit (registry.lookup n.kind)
        (departure (n.withChildren (onePassAll n.children)) n l above) s₂) _ _ :=
      ran_exit_same rfl hmembers
    obtain ⟨s₃, hexit, hedits', hsteady₃⟩ := hran'.exists_state
    rw [walk_of_left rfl rfl henter hwalk hexit]
    rw [hmembers] at hview
    refine ⟨congrArg Except.ok hview.symm, hsteady₂.trans hsteady₃, ?_, ?_⟩
    · intro m hm
      rw [hedits']
      exact houtside₂ m hm
    · have hat : s₃.edits.actionAt l = none := by
        rw [hedits', EditQueue.actionAt, hbelow l (Location.not_isStrictAncestorOf_self l),
          hl l (Location.contains_self l)]
        rfl
      rw [Node.substitute_of_none hat, hedits', hinside, hview]
  · have hran' : Ran s₂ (runRules .exit (registry.lookup n.kind)
        (departure (n.withChildren (onePassAll n.children)) n l above) s₂) _ _ :=
      ran_exit_changed (hs.of_steady hsteady₂) rfl hmembers
    obtain ⟨s₃, hexit, hedits', hsteady₃⟩ := hran'.exists_state
    rw [walk_of_left rfl rfl henter hwalk hexit]
    exact .of_push (congrArg Except.ok hview.symm) (hsteady₂.trans hsteady₃) hedits' houtside₂
      hview.symm

/-- **The induction over the tree.** A walk with enough levels left passes the node. -/
theorem passed_walk (hn : Regular n) (hheight : n.height < budget) (hs : Fixes s.collector)
    (hl : s.edits.Untouched l) :
    Passed l n s (walk registry maxDepth budget (Graft.ofNode n) l above s) := by
  induction n generalizing l above s budget with
  | node payload span cs ih =>
    obtain ⟨budget, rfl⟩ := Nat.exists_eq_succ_of_ne_zero (Nat.ne_zero_of_lt hheight)
    by_cases hcomment : isEmptyComment ⟨payload, span, cs⟩ = true
    · exact passed_walk_comment hcomment hs
    · have hcomment := Bool.eq_false_iff.mpr hcomment
      by_cases htidy : tidyPayload cs.isEmpty payload = payload
      · refine passed_walk_same hcomment htidy hs hl ?_
        intro s₁ hs₁ hedits
        refine passedAll_walkChildren ?_ ?_ none hs₁ ?_
        · rw [Nat.zero_add]
          exact hn.addressable.children_length
        · intro p hp s' hs' hl'
          have hmem : p.1 ∈ cs := List.fst_mem_of_mem_zipIdx hp
          have hlt := Node.height_lt_heightAll hmem
          rw [Node.height] at hheight
          exact ih p.1 hmem (hn.of_mem (Node.mem_parts_of_child hmem (Node.mem_parts_self _)))
            (by omega) hs' hl'
        · intro p _ m hm
          rw [hedits]
          exact hl m (Location.contains_of_child_contains hm)
      · exact passed_walk_changed hcomment htidy (hn.children_eq_nil htidy) hs

end Walk

/-- **One pass over a tree.** The walk succeeds without being cancelled, and substituting its edits
    in the tree gives `onePass` of the tree. -/
theorem traverse_onePass {tree : Node} {c : Collector} {maxDepth : Nat} (htree : Regular tree)
    (hdepth : tree.height ≤ maxDepth) (hroot : isEmptyComment tree = false) (hc : Fixes c) :
    let out := traverse registry maxDepth tree c
    out.1 = .ok (some (onePass tree)) ∧ out.2.cancelled = false ∧
      tree.substitute out.2.edits.actionAt Location.root = some (onePass tree) := by
  have hview : view tree = some (onePass tree) := if_neg (Bool.eq_false_iff.mp hroot)
  have hpassed :
      Passed Location.root tree (WalkState.start c) (traverse registry maxDepth tree c) :=
    passed_walk htree (Nat.lt_succ_of_le hdepth) hc fun _ _ => rfl
  rw [hview.symm]
  exact ⟨hpassed.result, hpassed.steady.cancelled, hpassed.inside⟩

end TreeLint.Builtin
