import Mathlib
import TreeLint.Proofs.Collector
import TreeLint.Proofs.Substitution
import TreeLint.Proofs.Traversal

namespace TreeLint

/-!
# What asking a rule comes to

A callback answers in few ways, and each has one effect on the node and on the queue.

* `Ran` describes the outcome of asking rules: the node they leave and the queue they leave.
* `ran_quiet`: a callback that asks for no edits changes nothing. `ran_repair` and `ran_discard`:
  with fixes on, a repair replaces the node and a node that is discarded is removed.
* `ran_cons` and `ran_quiet_all` put the rules of a node together.
-/

/-- Nothing that decides about fixes has changed: the mode, the enabled categories, and that the run
    goes on. -/
structure WalkState.Steady (a b : WalkState) : Prop where
  mode : b.collector.mode = a.collector.mode
  enabled : b.collector.enabled = a.collector.enabled
  cancelled : b.cancelled = a.cancelled

namespace WalkState.Steady

theorem refl (s : WalkState) : s.Steady s := ⟨rfl, rfl, rfl⟩

/-- Nothing has changed from the first state to the last. -/
theorem trans {a b c : WalkState} (h : a.Steady b) (h' : b.Steady c) : a.Steady c :=
  ⟨h'.mode.trans h.mode, h'.enabled.trans h.enabled, h'.cancelled.trans h.cancelled⟩

/-- Fixes are made in both states or in neither. -/
theorem applies {a b : WalkState} (h : a.Steady b) (category : Category) :
    b.collector.applies category = a.collector.applies category := by
  unfold Collector.applies Collector.isEnabled
  rw [h.mode, h.enabled]

end WalkState.Steady

namespace Collector

/-- Fixes are made for enabled categories only. -/
theorem isEnabled_of_applies {c : Collector} {category : Category}
    (h : c.applies category = true) : c.isEnabled category = true := by
  unfold applies at h
  rw [Bool.and_eq_true] at h
  exact h.1

end Collector

/-- A reaction that does not cancel the run is steady. -/
theorem steady_react (s : WalkState) (r : Rule) (phase : Phase) (p : Path) {reaction : Reaction}
    (h : reaction.cancels = false) : s.Steady (s.react r phase p reaction) := by
  refine ⟨?_, ?_, ?_⟩
  · rw [collector_react]
  · rw [collector_react]
  · show (s.cancelled || reaction.cancels) = s.cancelled
    rw [h, Bool.or_false]

/-! ### Reactions -/

/-- The reaction asks for no edits, and the run goes on. -/
def Reaction.IsQuiet (p : Path) (reaction : Reaction) : Prop :=
  reaction.requests p = [] ∧ reaction.cancels = false

theorem Reaction.isQuiet_nothing (p : Path) : Reaction.nothing.IsQuiet p := ⟨rfl, rfl⟩

/-- A report asks for nothing. -/
theorem Reaction.isQuiet_report (p : Path) (category : Category) (message : MessageId) :
    (Reaction.report p category message).IsQuiet p := ⟨rfl, rfl⟩

/-- Asking rules in state `s` left the node `g` and the queue `q`. -/
structure Ran (s : WalkState) (out : Option Graft × WalkState) (g : Option Graft) (q : EditQueue) :
    Prop where
  result : out.1 = g
  edits : out.2.edits = q
  steady : s.Steady out.2

/-- The outcome as a pair, to rewrite with. -/
theorem Ran.exists_state {s : WalkState} {out : Option Graft × WalkState} {g : Option Graft}
    {q : EditQueue} (h : Ran s out g q) : ∃ s', out = (g, s') ∧ s'.edits = q ∧ s.Steady s' :=
  ⟨out.2, Prod.ext h.result rfl, h.edits, h.steady⟩

section Reactions

variable {r : Rule} {phase : Phase} {p : Path} {s : WalkState} {callback : Callback}

/-- A rule without a callback for the phase does nothing. -/
theorem ran_none (h : r.callback? phase = none) :
    Ran s (runRule r phase p s) (some p.here.graft) s.edits := by
  unfold runRule
  rw [h]
  exact ⟨rfl, rfl, .refl s⟩

/-- The state after a rule with a callback was asked. -/
theorem state_runRule (h : r.callback? phase = some callback) :
    (runRule r phase p s).2
      = if r.accepts p.kind && s.collector.isEnabled r.category then
          s.react r phase p (callback p s.collector)
        else s := by
  unfold runRule
  rw [h]
  simp only
  split
  · split
    · rfl
    · split
      · rfl
      · split
        · rfl
        · rfl
  · rfl

/-- A callback that asks for no edits leaves everything as it is. -/
theorem ran_quiet (h : r.callback? phase = some callback)
    (hquiet : (callback p s.collector).IsQuiet p) :
    Ran s (runRule r phase p s) (some p.here.graft) s.edits := by
  obtain ⟨hrequests, hcancels⟩ := hquiet
  have hedits : (s.react r phase p (callback p s.collector)).edits = s.edits := by
    show List.foldl _ s.edits ((callback p s.collector).requests p) = s.edits
    rw [hrequests]
    rfl
  unfold runRule
  rw [h]
  simp only
  split
  · rw [hedits, if_pos rfl]
    exact ⟨rfl, hedits, steady_react s r phase p hcancels⟩
  · exact ⟨rfl, rfl, .refl s⟩

/-- A callback that asks for one edit of its own node gets it. -/
theorem ran_single (h : r.callback? phase = some callback) (hkind : r.accepts p.kind = true)
    (henabled : s.collector.isEnabled r.category = true) {request : EditRequest}
    (hlevels : request.levels = 0)
    (hrequests : (callback p s.collector).requests p = [request])
    (hcancels : (callback p s.collector).cancels = false) :
    Ran s (runRule r phase p s)
      (request.action.result?.map fun node => { ownGraft p.here.graft [request] with node })
      (s.edits.push p.location p.here.found request.action) := by
  have hedits : (s.react r phase p (callback p s.collector)).edits
      = s.edits.push p.location p.here.found request.action := by
    show List.foldl _ s.edits ((callback p s.collector).requests p) = _
    rw [hrequests]
    show WalkState.request (p.here :: p.above) s.edits request = _
    unfold WalkState.request
    rw [hlevels]
    rfl
  -- The push is counted, so the rule is seen to have queued something.
  have hrevision : ¬ (s.edits.push p.location p.here.found request.action).revision
      = s.edits.revision := Nat.succ_ne_self _
  have hsteady := steady_react s r phase p hcancels
  unfold runRule
  rw [h]
  simp only [hkind, henabled, Bool.and_self, if_true]
  rw [hedits, if_neg hrevision, EditQueue.get?_push_self, hrequests]
  simp only
  cases ha : request.action with
  | remove =>
    rw [ha] at hedits
    exact ⟨rfl, hedits, hsteady⟩
  | replace node =>
    rw [ha] at hedits
    exact ⟨rfl, hedits, hsteady⟩

/-- A repair is made: the walk goes on with the repaired node and the queue holds the repair. -/
theorem ran_repair (h : r.callback? phase = some callback) (hkind : r.accepts p.kind = true)
    (happlies : s.collector.applies r.category = true) {message : MessageId} {fixed : Node}
    (hrepair : callback p s.collector
      = Reaction.repair p s.collector r.category message fixed)
    (hne : (fixed == p.node) = false) :
    Ran s (runRule r phase p s) (some (Graft.ofNode fixed))
      (s.edits.push p.location p.here.found (.replace fixed)) := by
  have hrequests : (callback p s.collector).requests p = [.replace 0 (Graft.ofNode fixed)] := by
    rw [hrepair]
    simp [Reaction.repair, Reaction.requests, Transform.after, Graft.ofNode, Collector.choose,
      happlies, hne]
  exact ran_single h hkind (Collector.isEnabled_of_applies happlies) rfl hrequests
    (by rw [hrepair]; rfl)

/-- A node that is discarded is removed. -/
theorem ran_discard (h : r.callback? phase = some callback) (hkind : r.accepts p.kind = true)
    (happlies : s.collector.applies r.category = true) {message : MessageId}
    (hdiscard : callback p s.collector = Reaction.discard p s.collector r.category message) :
    Ran s (runRule r phase p s) none (s.edits.push p.location p.here.found .remove) := by
  have hrequests : (callback p s.collector).requests p = [.remove 0] := by
    rw [hdiscard]
    simp [Reaction.discard, Reaction.requests, happlies]
  exact ran_single h hkind (Collector.isEnabled_of_applies happlies) rfl hrequests
    (by rw [hdiscard]; rfl)

/-! ### Rules in turn -/

/-- Once the node is removed no further rule is asked. -/
theorem ran_cons_none {rules : List Rule} {q : EditQueue}
    (h : Ran s (runRule r phase p s) none q) : Ran s (runRules phase (r :: rules) p s) none q := by
  obtain ⟨hresult, hedits, hsteady⟩ := h
  rw [runRules]
  generalize runRule r phase p s = out at hresult hedits hsteady ⊢
  obtain ⟨g, s'⟩ := out
  subst hresult
  exact ⟨rfl, hedits, hsteady⟩

/-- The next rules are asked about what the first one leaves. -/
theorem ran_cons {rules : List Rule} {g : Graft} {g' : Option Graft} {q q' : EditQueue}
    (h : Ran s (runRule r phase p s) (some g) q)
    (h' : ∀ s', s.Steady s' → s'.edits = q →
      Ran s' (runRules phase rules { p with here := { p.here with graft := g } } s') g' q') :
    Ran s (runRules phase (r :: rules) p s) g' q' := by
  obtain ⟨hresult, hedits, hsteady⟩ := h
  rw [runRules]
  generalize runRule r phase p s = out at hresult hedits hsteady ⊢
  obtain ⟨g₁, s'⟩ := out
  subst hresult
  obtain ⟨hresult', hedits', hsteady'⟩ := h' s' hsteady hedits
  exact ⟨hresult', hedits', hsteady.trans hsteady'⟩

/-- Rules that ask for no edits of the node leave everything as it is. -/
theorem ran_quiet_all {rules : List Rule}
    (h : ∀ r ∈ rules, ∀ callback, r.callback? phase = some callback →
      ∀ c, (callback p c).IsQuiet p) :
    Ran s (runRules phase rules p s) (some p.here.graft) s.edits := by
  induction rules generalizing s with
  | nil => exact ⟨rfl, rfl, .refl s⟩
  | cons r rules ih =>
    have hr : Ran s (runRule r phase p s) (some p.here.graft) s.edits := by
      cases hcb : r.callback? phase with
      | none => exact ran_none hcb
      | some callback =>
        exact ran_quiet hcb (h r List.mem_cons_self callback hcb s.collector)
    refine ran_cons hr fun s' _ hedits => ?_
    rw [← hedits]
    exact ih fun r' hr' => h r' (List.mem_cons_of_mem r hr')

end Reactions

end TreeLint
