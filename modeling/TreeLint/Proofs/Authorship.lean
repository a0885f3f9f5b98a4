import Mathlib
import TreeLint.Proofs.Traversal

namespace TreeLint

/-!
# Who queued an edit

Every edit carries the count of pushes at which it was queued, and every invocation of a callback
notes the count that it began with. So the log of a walk tells in which invocation an edit was
queued, and a callback reaches no node but its own and those above it.

* `EditQueue.WellTimed`: no edit is dated after the last push.
* `EditQueue.Advances`: what the callbacks at a location can do to the queue.
* `Continues`: what a part of a walk adds to the log, such that each new edit has an author in it
  (`Edit.HasAuthor`). Walks below two children do not touch each other
  (`Continues.untouched_sibling`).
* `traceLaw` is the law of walks for it, `traces_walk` and `traces_walkChildren` what follows.
-/

/-! ### When edits were queued -/

namespace EditQueue

variable {q q' q'' : EditQueue} {l : Location}

/-- Every edit was queued by one of the pushes that are counted. -/
def WellTimed (q : EditQueue) : Prop := ∀ m e, q.get? m = some e → e.queuedAt ≤ q.revision

/-- What callbacks at `l` can do to the queue `q`: the edits of `q'` are edits of `q`, or were
    queued after them, at `l` or above it. -/
structure Advances (l : Location) (q q' : EditQueue) : Prop where
  revision_le : q.revision ≤ q'.revision
  edits : ∀ m e, q'.get? m = some e → q.get? m = some e ∨
    (q.revision < e.queuedAt ∧ e.queuedAt ≤ q'.revision ∧ m.contains l = true)

theorem Advances.refl (l : Location) (q : EditQueue) : Advances l q q :=
  ⟨Nat.le_refl _, fun _ _ he => .inl he⟩

/-- Callbacks at one location, one after another. -/
theorem Advances.trans (h : Advances l q q') (h' : Advances l q' q'') : Advances l q q'' := by
  refine ⟨h.revision_le.trans h'.revision_le, fun m e he => ?_⟩
  have hle := h.revision_le
  have hle' := h'.revision_le
  rcases h'.edits m e he with he | ⟨hlt, hqueued, hm⟩
  · rcases h.edits m e he with he | ⟨hlt, hqueued, hm⟩
    · exact .inl he
    · exact .inr ⟨hlt, by omega, hm⟩
  · exact .inr ⟨by omega, hqueued, hm⟩

/-- A push at or above `l` is one of the things that callbacks at `l` can do. -/
theorem advances_push {m : Location} (hm : m.contains l = true) (q : EditQueue) (found : Node)
    (action : EditAction) : Advances l q (q.push m found action) := by
  refine ⟨Nat.le_succ _, fun k e he => ?_⟩
  rw [get?_push] at he
  split at he
  · rename_i hk
    rw [← Option.some.inj he]
    exact .inr ⟨Nat.lt_succ_self _, Nat.le_refl _, hk ▸ hm⟩
  · exact .inl he

/-- The requests of a callback address locations of its steps. -/
theorem advances_foldl_request {steps : List Step}
    (hsteps : ∀ st ∈ steps, st.location.contains l = true) (requests : List EditRequest)
    (q : EditQueue) : Advances l q (requests.foldl (WalkState.request steps) q) := by
  induction requests generalizing q with
  | nil => exact Advances.refl l q
  | cons r requests ih =>
    have hone : Advances l q (WalkState.request steps q r) := by
      unfold WalkState.request
      split
      · rename_i st hst
        exact advances_push (hsteps st (List.mem_of_getElem? hst)) q _ _
      · exact Advances.refl l q
    exact hone.trans (ih _)

/-- Callbacks keep a queue well timed. -/
theorem Advances.wellTimed (h : Advances l q q') (hq : q.WellTimed) : q'.WellTimed := by
  intro m e he
  rcases h.edits m e he with he | ⟨-, hqueued, -⟩
  · exact (hq m e he).trans h.revision_le
  · exact hqueued

/-- As long as nothing is pushed there is no new edit. -/
theorem Advances.get?_of_revision (h : Advances l q q') (hrevision : q'.revision = q.revision)
    {m : Location} {e : Edit} (he : q'.get? m = some e) : q.get? m = some e := by
  rcases h.edits m e he with he | ⟨hlt, hqueued, -⟩
  · exact he
  · omega

/-- The callbacks at a location queue nothing below it. -/
theorem Advances.untouched_child (h : Advances l q q') (hq : q.Untouched l) (i : Nat) :
    q'.Untouched (l.child i) := by
  intro m hm
  rw [Option.eq_none_iff_forall_ne_some]
  intro e he
  rcases h.edits m e he with he | ⟨-, -, hml⟩
  · rw [hq m (Location.contains_of_child_contains hm)] at he
    exact absurd he.symm (Option.some_ne_none e)
  · have hloop := Location.isStrictAncestorOf_of_child_contains (Location.contains_trans hm hml)
    rw [Location.not_isStrictAncestorOf_self] at hloop
    exact absurd hloop Bool.false_ne_true

end EditQueue

/-! ### Who queued an edit -/

/-- The invocations so far. -/
def WalkState.log (s : WalkState) : List Visit := s.visits.toList

/-- `w` is the invocation in which the edit was queued, if those after it are `later`. -/
def Edit.QueuedIn (e : Edit) (w : Visit) (later : List Visit) : Prop :=
  w.edits.revision < e.queuedAt ∧ ∀ u ∈ later, e.queuedAt ≤ u.edits.revision

/-- The edit was queued in an invocation of the log, at its own location or below it. -/
def Edit.HasAuthor (e : Edit) (log : List Visit) : Prop :=
  ∃ before w later, log = before ++ w :: later ∧ e.QueuedIn w later ∧
    e.location.contains w.path.location = true

/-- What was logged before does not matter to the author of an edit. -/
theorem Edit.HasAuthor.append_left {e : Edit} {log : List Visit} (h : e.HasAuthor log)
    (earlier : List Visit) : e.HasAuthor (earlier ++ log) := by
  obtain ⟨before, w, later, rfl, hqueued, hw⟩ := h
  exact ⟨earlier ++ before, w, later, (List.append_assoc _ _ _).symm, hqueued, hw⟩

/-- What is logged later does not either, if the edit was there by then. -/
theorem Edit.HasAuthor.append_right {e : Edit} {log new : List Visit} (h : e.HasAuthor log)
    (hnew : ∀ u ∈ new, e.queuedAt ≤ u.edits.revision) : e.HasAuthor (log ++ new) := by
  obtain ⟨before, w, later, rfl, hqueued, hw⟩ := h
  refine ⟨before, w, later ++ new, by simp, ⟨hqueued.1, ?_⟩, hw⟩
  intro u hu
  rcases List.mem_append.mp hu with hu | hu
  · exact hqueued.2 u hu
  · exact hnew u hu

/-- What a part of a walk from `a` to `b` adds: it is only inside that callbacks are invoked, and
    they are the authors of all new edits. -/
structure Continues (inside : Location → Prop) (a b : WalkState) (new : List Visit) : Prop where
  log_eq : b.log = a.log ++ new
  visits : ∀ v ∈ new, inside v.path.location ∧ a.edits.revision ≤ v.edits.revision
  revision_le : a.edits.revision ≤ b.edits.revision
  wellTimed : b.edits.WellTimed
  edits : ∀ m e, b.edits.get? m = some e → a.edits.get? m = some e ∨ e.HasAuthor new

/-- From a well-timed queue on, the walk from `a` to `b` continues the log. -/
def Traces (inside : Location → Prop) (a b : WalkState) : Prop :=
  a.edits.WellTimed → ∃ new, Continues inside a b new

/-- Two parts of a walk: the authors of the first part keep their edits in the second, for later
    invocations see a queue that has them already. -/
theorem Traces.trans {inside : Location → Prop} {a b c : WalkState} (hab : Traces inside a b)
    (hbc : Traces inside b c) : Traces inside a c := by
  intro ha
  obtain ⟨new, h⟩ := hab ha
  obtain ⟨new', h'⟩ := hbc h.wellTimed
  refine ⟨new ++ new', ?_, ?_, h.revision_le.trans h'.revision_le, h'.wellTimed, ?_⟩
  · rw [h'.log_eq, h.log_eq, List.append_assoc]
  · intro v hv
    rcases List.mem_append.mp hv with hv | hv
    · exact h.visits v hv
    · exact ⟨(h'.visits v hv).1, h.revision_le.trans (h'.visits v hv).2⟩
  · intro m e he
    rcases h'.edits m e he with he | hauthor
    · rcases h.edits m e he with hold | hauthor
      · exact .inl hold
      · -- What is queued in `b` was queued before the invocations that follow.
        exact .inr (hauthor.append_right fun u hu =>
          (h.wellTimed m e he).trans (h'.visits u hu).2)
    · exact .inr (hauthor.append_left new)

/-- A walk below one child touches nothing below another, as the author of an edit there would be
    below both. -/
theorem Continues.untouched_sibling {l : Location} {i j : Nat} {a b : WalkState} {new : List Visit}
    (h : Continues (fun m => (l.child i).contains m = true) a b new) (hi : i < 2 ^ 32)
    (hj : j < 2 ^ 32) (hij : i ≠ j) (ha : a.edits.Untouched (l.child j)) :
    b.edits.Untouched (l.child j) := by
  intro m hm
  rw [Option.eq_none_iff_forall_ne_some]
  intro e he
  rcases h.edits m e he with hold | ⟨before, w, later, rfl, -, hw⟩
  · rw [ha m hm] at hold
    exact absurd hold.symm (Option.some_ne_none e)
  · rw [(EditQueue.get?_eq_some_iff.mp he).2] at hw
    have hinside := (h.visits w (by simp)).1
    exact hij (Location.child_contains_inj hi hj hinside (Location.contains_trans hm hw))

/-- What has been collected does not matter. -/
theorem Traces.of_collector {inside : Location → Prop} {a b : WalkState} {c c' : Collector}
    (h : Traces inside { a with collector := c } b) :
    Traces inside a { b with collector := c' } := by
  intro ha
  obtain ⟨new, hlog, hvisits, hle, hwellTimed, hedits⟩ := h ha
  exact ⟨new, hlog, hvisits, hle, hwellTimed, hedits⟩

/-- The steps lead down to `l`. -/
def Encloses (above : List Step) (l : Location) : Prop :=
  ∀ st ∈ above, st.location.contains l = true

/-- One step further down. -/
theorem Encloses.child {above : List Step} {l : Location} (h : Encloses above l) (entered : Graft)
    (found : Node) (i : Nat) : Encloses (⟨entered, found, l⟩ :: above) (l.child i) := by
  intro st hst
  rcases List.mem_cons.mp hst with rfl | hst
  · exact l.contains_child i
  · exact Location.contains_trans (h st hst) (l.contains_child i)

/-- The requests of a reaction address the node itself or nodes above it. -/
theorem advances_react {p : Path} (hp : Encloses p.above p.location) (s : WalkState) (r : Rule)
    (phase : Phase) (reaction : Reaction) :
    EditQueue.Advances p.location s.edits (s.react r phase p reaction).edits := by
  refine EditQueue.advances_foldl_request ?_ _ _
  intro st hst
  rcases List.mem_cons.mp hst with rfl | hst
  · exact Location.contains_self _
  · exact hp st hst

/-- A reaction adds one invocation to the log, with the queue as it was before. -/
theorem log_react (s : WalkState) (r : Rule) (phase : Phase) (p : Path) (reaction : Reaction) :
    ∃ v : Visit, (s.react r phase p reaction).log = s.log ++ [v] ∧ v.phase = phase ∧ v.path = p ∧
      v.edits = s.edits :=
  ⟨_, Array.toList_push, rfl, rfl, rfl⟩

/-- **Walks leave a trace of every edit.** -/
theorem traceLaw (registry : Registry) {inside : Location → Prop}
    (hinside : ∀ l i, inside l → inside (l.child i)) :
    WalkLaw registry (fun _ l above _ => inside l ∧ Encloses above l) (Traces inside) where
  refl s hs := ⟨[], by simp, by simp, Nat.le_refl _, hs, fun _ _ he => .inl he⟩
  trans := Traces.trans
  stable hC _ := hC
  react := by
    intro found l above s r phase callback _ _ hC graft hs
    have hadvances := advances_react (p := ⟨⟨graft, found, l⟩, above⟩) hC.2 s r phase
      (callback ⟨⟨graft, found, l⟩, above⟩ s.collector)
    obtain ⟨v, hlog, -, hpath, hedits⟩ := log_react s r phase ⟨⟨graft, found, l⟩, above⟩
      (callback ⟨⟨graft, found, l⟩, above⟩ s.collector)
    refine ⟨[v], hlog, ?_, hadvances.revision_le, hadvances.wellTimed hs, ?_⟩
    · intro u hu
      rw [List.mem_singleton.mp hu, hpath, hedits]
      exact ⟨hC.1, Nat.le_refl _⟩
    · intro m e he
      rcases hadvances.edits m e he with hold | ⟨hlt, -, hm⟩
      · exact .inl hold
      · refine .inr ⟨[], v, [], rfl, ⟨hedits ▸ hlt, by simp⟩, ?_⟩
        rw [(EditQueue.get?_eq_some_iff.mp he).2, hpath]
        exact hm
  child hC entered _ i _ _ := ⟨hinside _ i hC.1, hC.2.child entered _ i⟩
  suppress hC _ := hC
  lift := Traces.of_collector

/-- **A walk leaves a trace of every edit**, and invokes callbacks only inside. -/
theorem traces_walk (registry : Registry) (maxDepth budget : Nat) {inside : Location → Prop}
    (hinside : ∀ l i, inside l → inside (l.child i)) {g : Graft} {l : Location} {above : List Step}
    (hl : inside l) (habove : Encloses above l) (s : WalkState) :
    Traces inside s (walk registry maxDepth budget g l above s).2 :=
  (traceLaw registry hinside).rel_walk maxDepth budget g ⟨hl, habove⟩

/-- While the children of a node are walked, callbacks are invoked strictly below the node only. -/
theorem traces_walkChildren (registry : Registry) (maxDepth budget : Nat) (entered : Graft)
    (found : Node) {l : Location} {above : List Step} (habove : Encloses above l) (s : WalkState) :
    Traces (fun m => l.isStrictAncestorOf m = true) s
      (walkChildren (fun i c => walk registry maxDepth budget (entered.child i c) (l.child i)
        (⟨entered, found, l⟩ :: above)) 0 none entered.node.children s).2 := by
  have hbelow : ∀ m i, l.isStrictAncestorOf m = true → l.isStrictAncestorOf (m.child i) = true :=
    fun m i hm => Location.isStrictAncestorOf_of_contains hm (m.contains_child i)
  have hchild : ∀ j c, entered.node.children[j]? = some c →
      l.isStrictAncestorOf (l.child (0 + j)) = true ∧
        Encloses (⟨entered, found, l⟩ :: above) (l.child (0 + j)) :=
    fun j _ _ => ⟨l.isStrictAncestorOf_child _, habove.child entered found _⟩
  exact (traceLaw registry hbelow).rel_walkChildren _
    (fun j c _ s hC => traces_walk registry maxDepth budget hbelow hC.1 hC.2 s) none hchild

end TreeLint
