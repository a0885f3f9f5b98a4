import Mathlib
import TreeLint.Proofs.FreshPass

namespace TreeLint

/-!
# The view of a pass is what its edits give

A pass builds a view of the tree as it goes: a node is left as the rules saw it last, with its
children as the walk left them. The edits are put in a queue, and applied when the pass is over. For
rules that edit their own node only, and as long as no edit loses to another one, both come to the
same tree.

* `Registry.EditsOwnNode`: callbacks ask for no edits above their own node.
* `EditQueue.LaterWithin`: an outermost edit came after all edits below it. Without conflicts that
  is so (`laterWithin_root`).
* `OwnRun` says what asking the rules about one node comes to, `Viewed` what the walk of a node
  comes to and `ViewedAll` what the walk of its children comes to. An edit that was queued on entry
  can be the last one of its node only if nothing was queued below it.
* `viewed_of_left` is the step from the children to their parent, `viewed_walk` the induction over
  the walk, and `view_eq_applyEdits` the result.
-/

/-- Callbacks ask for edits of their own node only. -/
def Registry.EditsOwnNode (registry : Registry) : Prop :=
  ∀ r ∈ registry.rules, ∀ phase callback, r.callback? phase = some callback →
    ∀ p c, ∀ request ∈ (callback p c).edits, request.levels = 0

/-- A transform is an edit of the node itself. -/
theorem Reaction.levels_requests {reaction : Reaction} {p : Path}
    (h : ∀ request ∈ reaction.edits, request.levels = 0) :
    ∀ request ∈ reaction.requests p, request.levels = 0 := by
  unfold Reaction.requests
  split
  · split
    · exact h
    · intro request hrequest
      rcases List.mem_append.mp hrequest with hedit | hown
      · exact h request hedit
      · rw [List.mem_singleton.mp hown]
        rfl
  · exact h

/-! ### Outermost edits that came last -/

namespace EditQueue

variable {q q' : EditQueue} {l : Location}

/-- Of the edits at and below `l`, one that lies below no other of them came after all those below
    it. -/
def LaterWithin (q : EditQueue) (l : Location) : Prop :=
  ∀ m o, l.contains m = true → q.get? m = some o →
    (∀ a, l.contains a = true → a.isStrictAncestorOf m = true → q.get? a = none) →
      ∀ k d, m.isStrictAncestorOf k = true → q.get? k = some d → d.queuedAt < o.queuedAt

/-- Only the edits at and below the location matter. -/
theorem LaterWithin.congr (h : q.LaterWithin l)
    (heq : ∀ m, l.contains m = true → q'.get? m = q.get? m) : q'.LaterWithin l := by
  intro m o hm ho houter k d hmk hd
  have hk : l.contains k = true :=
    Location.contains_trans hm (Location.contains_of_isStrictAncestorOf hmk)
  rw [heq m hm] at ho
  rw [heq k hk] at hd
  refine h m o hm ho ?_ k d hmk hd
  intro a ha ham
  rw [← heq a ha]
  exact houter a ha ham

/-- Without an edit at a node the edits below its children are outermost as before. -/
theorem LaterWithin.child (h : q.LaterWithin l) (hl : q.get? l = none) (i : Nat) :
    q.LaterWithin (l.child i) := by
  intro m o hm ho houter k d hmk hd
  refine h m o (Location.contains_of_child_contains hm) ho ?_ k d hmk hd
  intro a ha ham
  by_cases hla : l = a
  · exact hla ▸ hl
  · have hstrict := Location.isStrictAncestorOf_iff.mpr ⟨ha, hla⟩
    exact houter a (Location.child_contains_of_isStrictAncestorOf hm ham hstrict) ham

/-- An edit at the location itself came after all edits below it. -/
theorem LaterWithin.queuedAt_lt (h : q.LaterWithin l) {o d : Edit} {k : Location}
    (ho : q.get? l = some o) (hk : l.isStrictAncestorOf k = true) (hd : q.get? k = some d) :
    d.queuedAt < o.queuedAt := by
  refine h l o (Location.contains_self l) ho ?_ k d hk hd
  intro a ha hal
  have hlen := Location.length_lt_of_isStrictAncestorOf hal
  have hle := (Location.contains_iff_isPrefix.mp ha).length_le
  omega

/-- Without conflicts every outermost edit came after all edits below it, which it carries. -/
theorem laterWithin_root (h : q.resolve.conflicts = []) : q.LaterWithin Location.root := by
  intro m o _ ho houter k d hmk hd
  obtain ⟨homem, rfl⟩ := get?_eq_some_iff.mp ho
  obtain ⟨hdmem, rfl⟩ := get?_eq_some_iff.mp hd
  have hout : q.IsOutermost o.location := by
    intro a ha
    by_contra hao
    have hnone := houter a.location (Location.root_contains _) (Bool.not_eq_false _ ▸ hao)
    rw [mem_edits_iff.mp ha] at hnone
    exact absurd hnone (Option.some_ne_none a)
  have hcarried : d.IsCarriedBy o := by
    by_contra hnot
    have hconflict := mem_conflicts_resolve.mpr
      ⟨d, hdmem, o, mem_kept_resolve.mpr ⟨homem, hout⟩, hmk, hnot, rfl⟩
    rw [h] at hconflict
    exact absurd hconflict List.not_mem_nil
  obtain ⟨-, -, hlt, -⟩ := hcarried
  exact hlt

end EditQueue

/-! ### Asking the rules about one node -/

/-- What asking rules about the node `n` at `l` comes to when they edit that node only: they leave
    everything alone, or the last edit of the queue is one of the node, to what they leave. -/
structure OwnRun (l : Location) (n : Node) (q : EditQueue) (result : Option Node) (q' : EditQueue) :
    Prop where
  outside : ∀ m, m ≠ l → q'.get? m = q.get? m
  effect : (q' = q ∧ result = some n) ∨
    ∃ e, q'.get? l = some e ∧ q.revision < q'.revision ∧ e.queuedAt = q'.revision ∧
      e.action.result? = result

namespace OwnRun

variable {l : Location} {n n' : Node} {q q' q'' : EditQueue} {result : Option Node}

theorem refl (l : Location) (n : Node) (q : EditQueue) : OwnRun l n q (some n) q :=
  ⟨fun _ _ => rfl, .inl ⟨rfl, rfl⟩⟩

/-- The count of edits does not go back. -/
theorem revision_le (h : OwnRun l n q result q') : q.revision ≤ q'.revision := by
  rcases h.effect with ⟨rfl, -⟩ | ⟨-, -, hlt, -⟩
  · exact le_rfl
  · exact hlt.le

/-- Without new edits the node stays as it is; otherwise the latest edit is one of the node. -/
theorem latest (h : OwnRun l n q result q') :
    (q' = q ∧ result = some n) ∨
      ∃ e ∈ q'.edits, l.contains e.location = true ∧ q.revision < q'.revision ∧
        e.queuedAt = q'.revision := by
  rcases h.effect with hsame | ⟨e, he, hlt, hlast, -⟩
  · exact .inl hsame
  · obtain ⟨hmem, rfl⟩ := EditQueue.get?_eq_some_iff.mp he
    exact .inr ⟨e, hmem, Location.contains_self _, hlt, hlast⟩

/-- Rules that are asked one after another: the later ones see what the earlier ones left, and their
    edit is the latest. -/
theorem trans (h : OwnRun l n q (some n') q') (h' : OwnRun l n' q' result q'') :
    OwnRun l n q result q'' := by
  refine ⟨fun m hm => (h'.outside m hm).trans (h.outside m hm), ?_⟩
  rcases h'.effect with ⟨rfl, rfl⟩ | ⟨e, he, hlt, hlast, hresult⟩
  · exact h.effect
  · exact .inr ⟨e, he, lt_of_le_of_lt h.revision_le hlt, hlast, hresult⟩

end OwnRun

/-- Requests for the node itself are seen at its location only, and the last one stays the latest
    edit. -/
theorem foldl_request_own (here : Step) (above : List Step) {requests : List EditRequest}
    (h : ∀ request ∈ requests, request.levels = 0) (q : EditQueue) :
    let q' := requests.foldl (WalkState.request (here :: above)) q
    (∀ m, m ≠ here.location → q'.get? m = q.get? m) ∧
      (q' = q ∨ ∃ e, q'.get? here.location = some e ∧ q.revision < q'.revision ∧
        e.queuedAt = q'.revision) := by
  -- From the last request back: it is the one that stays.
  induction requests using List.reverseRecOn with
  | nil => exact ⟨fun _ _ => rfl, .inl rfl⟩
  | append_singleton requests request ih =>
    obtain ⟨houtside, hbefore⟩ := ih fun r hr => h r (List.mem_append_left _ hr)
    simp only [List.foldl_append, List.foldl_cons, List.foldl_nil]
    generalize requests.foldl (WalkState.request (here :: above)) q = q₁ at houtside hbefore ⊢
    have hlevels : request.levels = 0 := h request (by simp)
    have hpush : WalkState.request (here :: above) q₁ request
        = q₁.push here.location here.found request.action := by
      unfold WalkState.request
      rw [hlevels]
      rfl
    rw [hpush]
    constructor
    · intro m hm
      rw [q₁.get?_push_of_ne here.found request.action hm]
      exact houtside m hm
    · refine .inr ⟨_, q₁.get?_push_self _ _ _, ?_, rfl⟩
      show q.revision < q₁.revision + 1
      rcases hbefore with rfl | ⟨-, -, hlt, -⟩
      · exact Nat.lt_succ_self _
      · exact hlt.trans (Nat.lt_succ_self _)

section Rules

variable {registry : Registry}

/-- One rule. -/
theorem ownRun_runRule (hown : registry.EditsOwnNode) (phase : Phase) {r : Rule}
    (hr : r ∈ registry.rules) (p : Path) (s : WalkState) :
    OwnRun p.location p.node s.edits ((runRule r phase p s).1.map (·.node))
      (runRule r phase p s).2.edits := by
  unfold runRule
  cases hcallback : r.callback? phase with
  | none => exact .refl _ _ _
  | some callback =>
    simp only
    split
    · have hlevels := Reaction.levels_requests (p := p)
        (hown r hr phase callback hcallback p s.collector)
      obtain ⟨houtside, heffect⟩ := foldl_request_own p.here p.above hlevels s.edits
      have hedits : (s.react r phase p (callback p s.collector)).edits
          = ((callback p s.collector).requests p).foldl
              (WalkState.request (p.here :: p.above)) s.edits := rfl
      rw [← hedits] at houtside heffect
      -- The rule is taken at its word only if the count has gone on.
      rcases heffect with hsame | ⟨e, he, hlt, hlast⟩
      · rw [if_pos (by rw [hsame])]
        exact ⟨houtside, .inl ⟨hsame, rfl⟩⟩
      · have he : (s.react r phase p (callback p s.collector)).edits.get? p.location = some e := he
        rw [if_neg hlt.ne', he]
        simp only
        cases haction : e.action with
        | remove => exact ⟨houtside, .inr ⟨e, he, hlt, hlast, by rw [haction]; rfl⟩⟩
        | replace node => exact ⟨houtside, .inr ⟨e, he, hlt, hlast, by rw [haction]; rfl⟩⟩
    · exact .refl _ _ _

/-- Several rules in turn. -/
theorem ownRun_runRules (hown : registry.EditsOwnNode) (phase : Phase) {rules : List Rule}
    (hrules : ∀ r ∈ rules, r ∈ registry.rules) (p : Path) (s : WalkState) :
    OwnRun p.location p.node s.edits ((runRules phase rules p s).1.map (·.node))
      (runRules phase rules p s).2.edits := by
  induction rules generalizing p s with
  | nil => exact .refl _ _ _
  | cons r rules ih =>
    have hfirst := ownRun_runRule hown phase (hrules r List.mem_cons_self) p s
    rw [runRules]
    split
    · rename_i s' heq
      rw [heq] at hfirst
      exact hfirst
    · rename_i g s' heq
      rw [heq] at hfirst
      have hrest := ih (fun r' hr' => hrules r' (List.mem_cons_of_mem r hr'))
        { p with here := { p.here with graft := g } } s'
      exact hfirst.trans hrest

end Rules

/-! ### Walking a node and its children -/

/-- What the walk of the node `n` at `l` comes to, from the queue `q` to the queue `q'`. -/
structure Viewed (l : Location) (n : Node) (q : EditQueue) (result : Option Node) (q' : EditQueue) :
    Prop where
  /-- Other nodes are left alone. -/
  outside : ∀ m, l.contains m = false → q'.get? m = q.get? m
  /-- Without new edits the node stays as it is; otherwise the latest edit lies here. -/
  latest : (q' = q ∧ result = some n) ∨
    ∃ e ∈ q'.edits, l.contains e.location = true ∧ q.revision < q'.revision ∧
      e.queuedAt = q'.revision
  /-- The edits turn the node into the result, if outermost edits came after those below them. -/
  inside : n.Addressable → q.hasWithin l = false → q'.LaterWithin l →
    n.substitute q'.actionAt l = result

/-- What the walk of the children `cs` of the node at `l` comes to, the first having index `i`. -/
structure ViewedAll (l : Location) (i : Nat) (cs : List Node) (q : EditQueue) (results : List Node)
    (q' : EditQueue) : Prop where
  outside : ∀ m, (∀ p ∈ cs.zipIdx i, (l.child p.2).contains m = false) → q'.get? m = q.get? m
  latest : (q' = q ∧ results = cs) ∨
    ∃ e ∈ q'.edits, l.isStrictAncestorOf e.location = true ∧ q.revision < q'.revision ∧
      e.queuedAt = q'.revision
  inside : (∀ c ∈ cs, c.Addressable) → i + cs.length ≤ 2 ^ 32 →
    (∀ p ∈ cs.zipIdx i, q.hasWithin (l.child p.2) = false) →
    (∀ p ∈ cs.zipIdx i, q'.LaterWithin (l.child p.2)) →
      Node.substituteAll q'.actionAt l i cs = results

section Walk

variable {l : Location} {i : Nat} {q q₁ q₂ q₃ : EditQueue}

/-- A walk does not take the count of edits back. -/
theorem Viewed.revision_le {n : Node} {result : Option Node} (h : Viewed l n q result q₁) :
    q.revision ≤ q₁.revision := by
  rcases h.latest with ⟨rfl, -⟩ | ⟨-, -, -, hlt, -⟩
  · exact le_rfl
  · exact hlt.le

/-- Neither do the walks of children. -/
theorem ViewedAll.revision_le {cs results : List Node} (h : ViewedAll l i cs q results q₁) :
    q.revision ≤ q₁.revision := by
  rcases h.latest with ⟨rfl, -⟩ | ⟨-, -, -, hlt, -⟩
  · exact le_rfl
  · exact hlt.le

/-- Without children there is nothing to walk. -/
theorem ViewedAll.nil (l : Location) (i : Nat) (q : EditQueue) : ViewedAll l i [] q [] q :=
  ⟨fun _ _ => rfl, .inl ⟨rfl, rfl⟩, fun _ _ _ _ => rfl⟩

/-- The walk of one child and then of the others. -/
theorem ViewedAll.cons {c : Node} {cs rest : List Node} {walked : Option Node}
    (hfirst : Viewed (l.child i) c q walked q₁) (hrest : ViewedAll l (i + 1) cs q₁ rest q₂) :
    ViewedAll l i (c :: cs) q (walked.toList ++ rest) q₂ := by
  refine ⟨?_, ?_, ?_⟩
  · intro m hm
    rw [List.zipIdx_cons] at hm
    rw [hrest.outside m fun p hp => hm p (List.mem_cons_of_mem _ hp)]
    exact hfirst.outside m (hm (c, i) List.mem_cons_self)
  · rcases hrest.latest with ⟨rfl, rfl⟩ | ⟨e, he, hbelow, hlt, hlast⟩
    · rcases hfirst.latest with ⟨rfl, rfl⟩ | ⟨e, he, hc, hlt, hlast⟩
      · exact .inl ⟨rfl, rfl⟩
      · exact .inr ⟨e, he, Location.isStrictAncestorOf_of_child_contains hc, hlt, hlast⟩
    · exact .inr ⟨e, he, hbelow, lt_of_le_of_lt hfirst.revision_le hlt, hlast⟩
  · intro haddressable hlength huntouched hlater
    rw [List.zipIdx_cons] at huntouched hlater
    rw [List.length_cons] at hlength
    -- The regions of two children have no location in common.
    have hapart : ∀ p ∈ cs.zipIdx (i + 1), ∀ m, (l.child i).contains m = true →
        (l.child p.2).contains m = false := by
      intro p hp m hm
      have hlower := List.le_snd_of_mem_zipIdx hp
      have hupper := List.snd_lt_add_of_mem_zipIdx hp
      exact Location.child_contains_eq_false (by omega) (by omega) (by omega) hm
    have hkept : ∀ m, (l.child i).contains m = true → q₂.get? m = q₁.get? m := by
      intro m hm
      exact hrest.outside m fun p hp => hapart p hp m hm
    have hc : c.substitute q₂.actionAt (l.child i) = walked := by
      have hlater₁ : q₁.LaterWithin (l.child i) :=
        (hlater (c, i) List.mem_cons_self).congr fun m hm => (hkept m hm).symm
      rw [← hfirst.inside (haddressable c List.mem_cons_self)
        (huntouched (c, i) List.mem_cons_self) hlater₁]
      refine Node.substitute_congr c ?_
      intro m hm
      unfold EditQueue.actionAt
      rw [hkept m hm]
    have hcs : Node.substituteAll q₂.actionAt l (i + 1) cs = rest := by
      refine hrest.inside (fun d hd => haddressable d (List.mem_cons_of_mem c hd)) (by omega) ?_
        fun p hp => hlater p (List.mem_cons_of_mem _ hp)
      intro p hp
      refine EditQueue.hasWithin_eq_false_iff.mpr ?_
      intro m hm
      have hm' : (l.child i).contains m = false := by
        rw [Bool.eq_false_iff]
        intro hm'
        exact absurd hm (by simp [hapart p hp m hm'])
      rw [hfirst.outside m hm']
      exact EditQueue.hasWithin_eq_false_iff.mp (huntouched p (List.mem_cons_of_mem _ hp)) _ hm
    rw [Node.substituteAll, hc, hcs]

/-- The children are walked one after the other. -/
theorem viewedAll_walkChildren {visit : Nat → Node → WalkState → Walked (Option Node)}
    {cs results : List Node}
    (hvisit : ∀ p ∈ cs.zipIdx i, ∀ s result s', visit p.2 p.1 s = (.ok result, s') →
      Viewed (l.child p.2) p.1 s.edits result s'.edits)
    {pending : Option Suppression} {s s' : WalkState}
    (h : walkChildren visit i pending cs s = (.ok results, s')) :
    ViewedAll l i cs s.edits results s'.edits := by
  induction cs generalizing i pending s results with
  | nil =>
    rw [walkChildren, Prod.mk.injEq, Except.ok.injEq] at h
    obtain ⟨rfl, rfl⟩ := h
    exact .nil l i s.edits
  | cons c cs ih =>
    rw [List.zipIdx_cons] at hvisit
    obtain ⟨scope, pending', walked, s₁, rest, hfirst, hrest, rfl⟩ := walkChildren_cons_ok h
    obtain ⟨t, t', hwalk, ht, ht'⟩ := underSuppression_edits hfirst
    have hviewed := hvisit (c, i) List.mem_cons_self t walked t' hwalk
    rw [ht, ht'] at hviewed
    exact .cons hviewed (ih (fun p hp => hvisit p (List.mem_cons_of_mem _ hp)) hrest)

/-- A node that a rule removes on entry. -/
theorem viewed_of_removed {n : Node} (h : OwnRun l n q none q₁) : Viewed l n q none q₁ := by
  refine ⟨fun m hm => h.outside m (Location.ne_of_contains_eq_false hm), h.latest, ?_⟩
  intro _ _ _
  rcases h.effect with ⟨-, hnone⟩ | ⟨e, he, -, -, hresult⟩
  · exact absurd hnone.symm (Option.some_ne_none n)
  · rw [Node.substitute_of_some (EditQueue.actionAt_of_get? he), hresult]

/-- **From the children to their parent.** The rules leave `n'` on entry, its children are walked,
    and the rules are asked about the node with the new children. -/
theorem viewed_of_left {n n' : Node} {children : List Node} {result : Option Node}
    (henter : OwnRun l n q (some n') q₁) (hchildren : ViewedAll l 0 n'.children q₁ children q₂)
    (hexit : OwnRun l (n'.withChildren children) q₂ result q₃) : Viewed l n q result q₃ := by
  have hle₁ := henter.revision_le
  have hle₂ := hchildren.revision_le
  -- Walking the children leaves alone what does not lie strictly below the node.
  have hbelow : ∀ m, l.isStrictAncestorOf m = false → q₂.get? m = q₁.get? m := by
    intro m hm
    refine hchildren.outside m fun p _ => Bool.eq_false_iff.mpr fun hp => ?_
    exact absurd (Location.isStrictAncestorOf_of_child_contains hp) (by simp [hm])
  refine ⟨?_, ?_, ?_⟩
  · intro m hm
    have hne : m ≠ l := Location.ne_of_contains_eq_false hm
    have hstrict : l.isStrictAncestorOf m = false := by
      rw [Bool.eq_false_iff]
      intro hlm
      exact absurd (Location.contains_of_isStrictAncestorOf hlm) (by simp [hm])
    rw [hexit.outside m hne, hbelow m hstrict, henter.outside m hne]
  · -- The latest edit is that of the last of the three steps that queued any.
    rcases hexit.latest with ⟨rfl, rfl⟩ | ⟨e, he, hc, hlt, hlast⟩
    · rcases hchildren.latest with ⟨rfl, rfl⟩ | ⟨e, he, hlm, hlt, hlast⟩
      · rw [Node.withChildren_children]
        exact henter.latest
      · exact .inr ⟨e, he, Location.contains_of_isStrictAncestorOf hlm,
          lt_of_le_of_lt hle₁ hlt, hlast⟩
    · exact .inr ⟨e, he, hc, lt_of_le_of_lt (hle₁.trans hle₂) hlt, hlast⟩
  · intro hn huntouched hlater
    rcases hexit.effect with ⟨rfl, rfl⟩ | ⟨e, he, -, -, hresult⟩
    · have hat : q₃.get? l = q₁.get? l := hbelow l (Location.not_isStrictAncestorOf_self l)
      rcases henter.effect with ⟨rfl, hsame⟩ | ⟨e, he, -, hlast, hresult⟩
      · -- No rule has edited the node: what has changed are its children.
        obtain rfl : n' = n := Option.some.inj hsame
        have hnone : q₃.get? l = none :=
          hat.trans (EditQueue.hasWithin_eq_false_iff.mp huntouched _ (Location.contains_self l))
        have hcs := hchildren.inside
          (fun c hc => hn.of_mem (Node.mem_parts_of_child hc (Node.mem_parts_self c)))
          (by rw [Nat.zero_add]; exact hn.children_length)
          (fun p _ => EditQueue.hasWithin_eq_false_iff.mpr fun m hm =>
            EditQueue.hasWithin_eq_false_iff.mp huntouched m
              (Location.contains_of_child_contains hm))
          (fun p _ => hlater.child hnone p.2)
        rw [Node.substitute_of_none (EditQueue.actionAt_of_get?_none hnone), hcs]
        rfl
      · -- The last edit of the node was queued on entry, so nothing was queued below it.
        rw [he] at hat
        rcases hchildren.latest with ⟨-, rfl⟩ | ⟨d, hd, hlm, hlt, hlast'⟩
        · rw [Node.substitute_of_some (EditQueue.actionAt_of_get? hat), hresult,
            Node.withChildren_children]
        · have hearlier := hlater.queuedAt_lt hat hlm (EditQueue.mem_edits_iff.mp hd)
          omega
    · rw [Node.substitute_of_some (EditQueue.actionAt_of_get? he), hresult]

/-- **The induction over the walk.** -/
theorem viewed_walk {registry : Registry} (hown : registry.EditsOwnNode) {maxDepth budget : Nat}
    {g : Graft} {above : List Step} {s s' : WalkState} {result : Option Node}
    (h : walk registry maxDepth budget g l above s = (.ok result, s')) :
    Viewed l g.node s.edits result s'.edits := by
  induction budget generalizing g l above s s' result with
  | zero =>
    obtain ⟨b, hb, -⟩ := walk_ok_cases h
    exact absurd hb (by omega)
  | succ budget ih =>
    have hlookup : ∀ r ∈ registry.lookup g.node.kind, r ∈ registry.rules :=
      fun r hr => (Registry.mem_lookup.mp hr).1
    obtain ⟨b, hb, hcases⟩ := walk_ok_cases h
    obtain rfl : budget = b := Nat.succ.inj hb
    have henter := ownRun_runRules hown .enter hlookup ⟨⟨g, g.node, l⟩, above⟩ s
    rcases hcases with ⟨hremoved, rfl⟩ |
      ⟨entered, s₁, children, s₂, last, hleft, hwalk, hlast, rfl⟩
    · rw [hremoved] at henter
      exact viewed_of_removed henter
    · rw [hleft] at henter
      have hchildren := viewedAll_walkChildren (l := l) (fun p _ s result s' hs => ih hs) hwalk
      have hexit := ownRun_runRules hown .exit hlookup
        ⟨⟨Graft.ofNode (entered.node.withChildren children), g.node, l⟩, above⟩ s₂
      rw [hlast] at hexit
      exact viewed_of_left henter hchildren hexit

end Walk

/-- **The view of a pass is what its edits give.** For every tree whose nodes can be addressed,
    rules that edit their own node only, and all settings: if the pass succeeds and none of its
    edits loses to another one, applying its edits to the tree gives the view of the pass, spans
    included. Only when there is no view is the tree left as it is, since the edit of the root is
    a removal, which is refused. -/
theorem view_eq_applyEdits (registry : Registry) (maxDepth : Nat) (tree : Node) (c : Collector)
    (hown : registry.EditsOwnNode) (htree : tree.Addressable) (view : Option Node)
    (hview : (traverse registry maxDepth tree c).1 = .ok view)
    (hconflicts : (traverse registry maxDepth tree c).2.edits.resolve.conflicts = []) :
    let q := (traverse registry maxDepth tree c).2.edits
    (∃ v, view = some v ∧ (applyEdits tree q).tree = v) ∨
      (view = none ∧ ∃ e, q.get? Location.root = some e ∧ e.action = .remove ∧
        (applyEdits tree q).tree = tree ∧ (applyEdits tree q).applied = [] ∧
        (applyEdits tree q).stale = [Location.root]) := by
  intro q
  have hwalk : walk registry maxDepth (maxDepth + 1) (Graft.ofNode tree) Location.root []
      (WalkState.start c) = (.ok view, (traverse registry maxDepth tree c).2) := Prod.ext hview rfl
  have hresult : tree.substitute q.actionAt Location.root = view :=
    (viewed_walk hown hwalk).inside htree rfl (EditQueue.laterWithin_root hconflicts)
  have hanchored : q.Anchored tree := anchored_traverse registry maxDepth c htree
  cases view with
  | some v => exact .inl ⟨v, rfl, hanchored.tree_applyEdits htree hresult⟩
  | none =>
    have hremove : q.actionAt Location.root = some .remove := Node.substitute_eq_none_iff.mp hresult
    obtain ⟨e, he, haction⟩ := Option.map_eq_some_iff.mp hremove
    obtain ⟨hmem, hloc⟩ := EditQueue.get?_eq_some_iff.mp he
    have hfresh : e.IsFresh tree := hanchored.isFresh hmem (hloc ▸ q.isOutermost_root)
    refine .inr ⟨rfl, e, he, haction, ?_⟩
    rw [applyEdits_of_removesRoot htree ⟨e, he, hfresh, haction⟩]
    exact ⟨rfl, rfl, rfl⟩

namespace Builtin

/-- Closing an element is asked for as a change of the node itself. -/
theorem edits_closeElement (test : String → Bool) (category : Category) (message : MessageId)
    (p : Path) (c : Collector) : (closeElement test category message p c).edits = [] := by
  unfold closeElement
  split
  · split
    · rfl
    · rfl
  · rfl

/-- The built-in rules edit their own node only: all but one of them leave that to the transform. -/
theorem editsOwnNode_registry : registry.EditsOwnNode := by
  intro r hr phase callback hcallback p c request hrequest
  have hnone : ¬ (callback p c).edits = [] := List.ne_nil_of_mem hrequest
  simp only [registry, rules, List.mem_cons, List.not_mem_nil, or_false] at hr
  -- All rules but one ask for changes of the node through what they return, not by edits.
  rcases hr with rfl | rfl | rfl | rfl | rfl | rfl
  · cases phase <;> cases hcallback
    exact absurd (edits_closeElement _ _ _ p c) hnone
  · cases phase <;> cases hcallback
    exact absurd (edits_closeElement _ _ _ p c) hnone
  · -- An empty comment is removed by an edit.
    cases phase <;> cases hcallback
    simp only at hrequest
    split at hrequest
    · unfold Reaction.discard at hrequest
      simp only at hrequest
      split at hrequest
      · rw [List.mem_singleton.mp hrequest]
        rfl
      · exact absurd hrequest List.not_mem_nil
    · exact absurd hrequest List.not_mem_nil
  · cases phase <;> cases hcallback
    refine absurd ?_ hnone
    simp only
    split
    · split
      · rfl
      · rfl
    · rfl
  · cases phase <;> cases hcallback
    refine absurd ?_ hnone
    simp only
    split
    · rfl
    · rfl
  · cases phase <;> cases hcallback
    refine absurd ?_ hnone
    simp only
    split
    · rfl
    · rfl

/-- A body with an empty comment and a property that is declared twice. -/
def untidyBody : Node :=
  .ofPayload .interfaceBody
    [.ofPayload (.propertySignature "a" false false none) [], .ofPayload (.comment "") [],
      .ofPayload (.propertySignature "a" true false none) []]

/-- The replacement of the body carries the removal of the comment. -/
theorem view_eq_applyEdits_untidyBody :
    let out := traverse registry 8 untidyBody (Collector.new .applyFixes none)
    registry.EditsOwnNode ∧ untidyBody.Addressable ∧ out.2.edits.resolve.conflicts = [] ∧
      out.2.edits.edits.map (·.location) = [Location.root, ⟨[1]⟩] ∧
      ∃ v, out.1 = .ok (some v) ∧ (applyEdits untidyBody out.2.edits).tree = v := by
  intro out
  have haddressable : untidyBody.Addressable := by
    unfold Node.Addressable
    decide
  have hconflicts : out.2.edits.resolve.conflicts = [] := by decide +kernel
  have hview : out.1 = .ok (some (.ofPayload .interfaceBody
      [.ofPayload (.propertySignature "a" false false none) []])) := by rfl
  refine ⟨editsOwnNode_registry, haddressable, hconflicts, by decide +kernel, _, hview, ?_⟩
  rcases view_eq_applyEdits registry 8 untidyBody _ editsOwnNode_registry haddressable _ hview
    hconflicts with ⟨v, hv, htree⟩ | ⟨hnone, -⟩
  · exact htree.trans (Option.some.inj hv).symm
  · exact absurd hnone (Option.some_ne_none _)

end Builtin

end TreeLint
