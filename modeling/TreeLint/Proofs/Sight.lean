import Mathlib
import TreeLint.Proofs.Application
import TreeLint.Proofs.Authorship

namespace TreeLint

/-!
# What callbacks see of the edits of their pass

A callback is shown its node as the pass has left it so far. The walk looks at the queue for that
after each callback at the node, but not when it comes back from the children. An edit of a node
that was queued from below it is therefore hidden from the exit callbacks of the node, up to the
first one that queues something itself. Nothing else is ever hidden.

* `Aware`: an edit at a node is shown by the node, or else overlooked (`Edit.Overlooked`).
* `Sound`: every invocation of a log was aware.
* `consistent_runRule` is the step of the proof, and `consistent_walk` the induction over the walk.
* `traverse_shows_edits` is the result for whole passes. `traverse_hides_edits` gives a replacement
  and a removal that are hidden.
-/

/-! ### Edits that a node shows -/

/-- The node shows the edit: it has the payload that the edit puts in place. A removal cannot be
    shown. -/
def Edit.ShownBy (e : Edit) (n : Node) : Prop :=
  ∃ node, e.action = .replace node ∧ n.payload = node.payload

/-- The edit was queued from strictly below its location, in an invocation of the log since which
    the invocations at its location have queued nothing: the queue was as it is now at each of them.
    -/
def Edit.Overlooked (e : Edit) (q : EditQueue) (log : List Visit) : Prop :=
  ∃ before w later, log = before ++ w :: later ∧ e.QueuedIn w later ∧
    e.location.isStrictAncestorOf w.path.location = true ∧
    ∀ u ∈ later, u.path.location = e.location → u.edits.revision = q.revision

/-- An edit that is overlooked stays so after an invocation that queues nothing. -/
theorem Edit.Overlooked.append {e : Edit} {q q' : EditQueue} {log : List Visit}
    (h : e.Overlooked q log) {v : Visit} (hv : v.edits = q) (hrevision : q'.revision = q.revision)
    (hqueued : e.queuedAt ≤ q.revision) : e.Overlooked q' (log ++ [v]) := by
  obtain ⟨before, w, later, rfl, hin, hw, hlater⟩ := h
  refine ⟨before, w, later ++ [v], by simp, ⟨hin.1, ?_⟩, hw, ?_⟩
  · intro u hu
    rcases List.mem_append.mp hu with hu | hu
    · exact hin.2 u hu
    · rw [List.mem_singleton.mp hu, hv]
      exact hqueued
  · intro u hu hlocation
    rw [hrevision]
    rcases List.mem_append.mp hu with hu | hu
    · exact hlater u hu hlocation
    · rw [List.mem_singleton.mp hu, hv]

/-- The node that is shown at `l` in a phase shows the edit there. Only on exit there may be an edit
    that is overlooked. -/
def Aware (phase : Phase) (l : Location) (n : Node) (q : EditQueue) (log : List Visit) : Prop :=
  ∀ e, q.get? l = some e → e.ShownBy n ∨ phase = .exit ∧ e.Overlooked q log

/-- A word can count the children of each of the nodes of the steps, so that no two nodes on the way
    down have one location. -/
def AddressableSteps (above : List Step) : Prop :=
  ∀ st ∈ above, st.graft.node.children.length ≤ 2 ^ 32

/-- Every invocation of the log at a node that can be addressed was aware of what had been queued.
    -/
def Sound (log : List Visit) : Prop :=
  ∀ before v after, log = before ++ v :: after → AddressableSteps v.path.above →
    Aware v.phase v.path.location v.path.node v.edits before

theorem Sound.append {log : List Visit} (h : Sound log) {v : Visit}
    (hv : AddressableSteps v.path.above →
      Aware v.phase v.path.location v.path.node v.edits log) : Sound (log ++ [v]) := by
  intro before u after hlog
  rcases List.eq_nil_or_concat after with rfl | ⟨after, x, rfl⟩
  · obtain ⟨rfl, hu⟩ := List.append_inj' hlog rfl
    rw [← List.cons.inj hu |>.1]
    exact hv
  · have hlog' : log ++ [v] = (before ++ u :: after) ++ [x] := by simpa using hlog
    exact h before u after (List.append_inj' hlog' rfl).1

/-- The queue is well-timed and the log is sound. -/
structure WalkState.Consistent (s : WalkState) : Prop where
  wellTimed : s.edits.WellTimed
  sound : Sound s.log

/-! ### One rule after the other -/

/-- The state after a rule was asked. -/
theorem runRule_state (r : Rule) (phase : Phase) (p : Path) (s : WalkState) :
    (runRule r phase p s).2 = s ∨
      ∃ reaction, (runRule r phase p s).2 = s.react r phase p reaction := by
  have hasked := asked_runRule r phase p s
  generalize runRule r phase p s = out at hasked ⊢
  cases hasked with
  | skipped => exact .inl rfl
  | left callback => exact .inr ⟨_, rfl⟩
  | replaced callback => exact .inr ⟨_, rfl⟩
  | removed callback => exact .inr ⟨_, rfl⟩

/-- After a rule was asked, an edit of the node is the one that the node is taken from, or else the
    rule has queued nothing. -/
theorem runRule_edit {r : Rule} {phase : Phase} {p : Path} {s : WalkState} {g : Graft}
    (h : (runRule r phase p s).1 = some g) {e : Edit}
    (he : (runRule r phase p s).2.edits.get? p.location = some e) :
    e.action = .replace g.node ∨
      g = p.here.graft ∧ (runRule r phase p s).2.edits.revision = s.edits.revision := by
  unfold runRule at h he ⊢
  cases hcb : r.callback? phase with
  | none =>
    simp only [hcb, Option.some.injEq] at h
    exact .inr ⟨h.symm, rfl⟩
  | some callback =>
    simp only [hcb] at h he ⊢
    by_cases hasks : (r.accepts p.kind && s.collector.isEnabled r.category) = true
    · simp only [hasks, if_true] at h he ⊢
      -- A rule is taken at its word only if it has queued something.
      by_cases hrevision : (s.react r phase p (callback p s.collector)).edits.revision
          = s.edits.revision
      · simp only [hrevision, if_true, Option.some.injEq] at h ⊢
        exact .inr ⟨h.symm, trivial⟩
      · simp only [hrevision, if_false] at h he ⊢
        cases hget : (s.react r phase p (callback p s.collector)).edits.get? p.location with
        | none =>
          simp only [hget] at he
          exact absurd he.symm (Option.some_ne_none e)
        | some e' =>
          cases haction : e'.action with
          | remove =>
            simp only [hget, haction] at h
            exact absurd h.symm (Option.some_ne_none g)
          | replace node =>
            simp only [hget, haction, Option.some.injEq] at h he
            rw [← he, haction, ← h]
            exact .inl rfl
    · simp only [hasks, Bool.false_eq_true, if_false, Option.some.injEq] at h ⊢
      exact .inr ⟨h.symm, trivial⟩

section Rules

variable {phase : Phase} {p : Path} {s : WalkState}

theorem advances_runRule (hp : Encloses p.above p.location) (r : Rule) (phase : Phase)
    (s : WalkState) : EditQueue.Advances p.location s.edits (runRule r phase p s).2.edits := by
  rcases runRule_state r phase p s with hstate | ⟨reaction, hstate⟩
  · rw [hstate]
    exact EditQueue.Advances.refl _ _
  · rw [hstate]
    exact advances_react hp s r phase reaction

/-- **The step of the proof.** A rule that is asked about a node that shows what was queued keeps
    the log sound, and so does the node that it leaves. -/
theorem consistent_runRule (r : Rule) (hp : Encloses p.above p.location) (hs : s.Consistent)
    (haware : AddressableSteps p.above → Aware phase p.location p.node s.edits s.log) :
    (runRule r phase p s).2.Consistent ∧ ∀ g, (runRule r phase p s).1 = some g →
      AddressableSteps p.above →
      Aware phase p.location g.node (runRule r phase p s).2.edits (runRule r phase p s).2.log := by
  have hadvances := advances_runRule hp r phase s
  constructor
  · refine ⟨hadvances.wellTimed hs.wellTimed, ?_⟩
    rcases runRule_state r phase p s with hstate | ⟨reaction, hstate⟩
    · rw [hstate]
      exact hs.sound
    · obtain ⟨v, hlog, rfl, rfl, hedits⟩ := log_react s r phase p reaction
      rw [hstate, hlog]
      exact hs.sound.append (hedits ▸ haware)
  · intro g hg hsteps e he
    rcases runRule_edit hg he with hreplace | ⟨rfl, hrevision⟩
    · exact .inl ⟨g.node, hreplace, rfl⟩
    · -- Nothing was queued, so the edit was there before and is shown or overlooked as before.
      have hold := hadvances.get?_of_revision hrevision he
      rcases haware hsteps e hold with hshown | ⟨hexit, hoverlooked⟩
      · exact .inl hshown
      · refine .inr ⟨hexit, ?_⟩
        rcases runRule_state r phase p s with hstate | ⟨reaction, hstate⟩
        · rw [hstate]
          exact hoverlooked
        · obtain ⟨v, hlog, -, -, hedits⟩ := log_react s r phase p reaction
          rw [hstate] at hrevision ⊢
          rw [hlog]
          exact hoverlooked.append hedits hrevision (hs.wellTimed _ e hold)

theorem advances_runRules (hp : Encloses p.above p.location) (phase : Phase) (rules : List Rule)
    (s : WalkState) : EditQueue.Advances p.location s.edits (runRules phase rules p s).2.edits := by
  induction rules generalizing p s with
  | nil => exact EditQueue.Advances.refl _ _
  | cons r rules ih =>
    have hr := advances_runRule hp r phase s
    rw [runRules]
    split
    · rename_i s' heq
      rw [heq] at hr
      exact hr
    · rename_i g s' heq
      rw [heq] at hr
      exact hr.trans (ih (p := { p with here := { p.here with graft := g } }) hp s')

theorem consistent_runRules (rules : List Rule) (hp : Encloses p.above p.location)
    (hs : s.Consistent)
    (haware : AddressableSteps p.above → Aware phase p.location p.node s.edits s.log) :
    (runRules phase rules p s).2.Consistent ∧ ∀ g, (runRules phase rules p s).1 = some g →
      AddressableSteps p.above →
      Aware phase p.location g.node (runRules phase rules p s).2.edits
        (runRules phase rules p s).2.log := by
  induction rules generalizing p s with
  | nil =>
    refine ⟨hs, fun g hg => ?_⟩
    rw [← Option.some.inj hg]
    exact haware
  | cons r rules ih =>
    obtain ⟨hconsistent, hnext⟩ := consistent_runRule r hp hs haware
    rw [runRules]
    split
    · rename_i s' heq
      rw [heq] at hconsistent
      exact ⟨hconsistent, fun g hg => absurd hg.symm (Option.some_ne_none g)⟩
    · rename_i g s' heq
      rw [heq] at hconsistent hnext
      exact ih (p := { p with here := { p.here with graft := g } }) hp hconsistent (hnext g rfl)

end Rules

/-! ### The walk -/

/-- Walking children keeps the log sound, if walking each of them does. -/
theorem consistent_walkChildren {visit : Nat → Node → WalkState → Walked (Option Node)}
    {l : Location} {A : Prop}
    (hvisit : ∀ i c s, s.Consistent → (A → s.edits.Untouched (l.child i)) →
      (visit i c s).2.Consistent)
    (htraces : ∀ i c s, Traces (fun m => (l.child i).contains m = true) s (visit i c s).2)
    {i : Nat} {cs : List Node} {s : WalkState} (pending : Option Suppression)
    (hlength : A → i + cs.length ≤ 2 ^ 32) (hs : s.Consistent)
    (hfree : A → ∀ j < cs.length, s.edits.Untouched (l.child (i + j))) :
    (walkChildren visit i pending cs s).2.Consistent := by
  induction cs generalizing i pending s with
  | nil => exact hs
  | cons c cs ih =>
    -- A scope changes the collector only, and consistency does not look at that.
    have hfirst : ∀ scope, (underSuppression scope (visit i c) s).2.Consistent ∧
        Traces (fun m => (l.child i).contains m = true) s
          (underSuppression scope (visit i c) s).2 := by
      have hfree₀ := fun h => hfree h 0 (by simp)
      intro scope
      cases scope with
      | none => exact ⟨hvisit i c s hs hfree₀, htraces i c s⟩
      | some suppression =>
        have hs' : WalkState.Consistent { s with collector := s.collector.suppress suppression } :=
          ⟨hs.wellTimed, hs.sound⟩
        obtain ⟨hwellTimed, hsound⟩ := hvisit i c _ hs' hfree₀
        exact ⟨⟨hwellTimed, hsound⟩, (htraces i c _).of_collector⟩
    obtain ⟨hconsistent, htrace⟩ := hfirst (if c.commentText?.isSome then none else pending)
    rw [walkChildren]
    split
    · rename_i err s' heq
      rw [heq] at hconsistent
      exact hconsistent
    · rename_i walked s' heq
      rw [heq] at hconsistent htrace
      -- The walk of the first child queues nothing at its siblings: their numbers fit a word.
      have hrest := ih (i := i + 1) (s := s')
        ((c.commentText?.bind Suppression.parse?)
          <|> (if c.commentText?.isSome then pending else none))
        (fun h => by
          have := hlength h
          rw [List.length_cons] at this
          omega)
        hconsistent
        (fun h j hj => by
          obtain ⟨new, hcontinues⟩ := htrace hs.wellTimed
          have hle := hlength h
          have hlater := hfree h (j + 1) (by simpa using hj)
          rw [List.length_cons] at hle
          rw [show i + (j + 1) = i + 1 + j by omega] at hlater
          exact hcontinues.untouched_sibling (by omega) (by omega) (by omega) hlater)
      split
      · rename_i err s'' heq'
        rw [heq'] at hrest
        exact hrest
      · rename_i rest s'' heq'
        rw [heq'] at hrest
        exact hrest

/-- Back from the children, the edit of a node is shown as on entry, or it was queued from below. -/
theorem Aware.exit {l : Location} {n : Node} {a b : WalkState} {new : List Visit}
    (h : Aware .enter l n a.edits a.log)
    (hcontinues : Continues (fun m => l.isStrictAncestorOf m = true) a b new)
    (children : List Node) : Aware .exit l (n.withChildren children) b.edits b.log := by
  intro e he
  have hl := (EditQueue.get?_eq_some_iff.mp he).2
  rcases hcontinues.edits l e he with hold | ⟨before, w, later, hnew, hqueued, -⟩
  · rcases h e hold with hshown | ⟨hphase, -⟩
    · exact .inl hshown
    · exact absurd hphase (by decide)
  · have hbelow : ∀ u ∈ w :: later, e.location.isStrictAncestorOf u.path.location = true := by
      intro u hu
      rw [hl]
      exact (hcontinues.visits u (hnew ▸ List.mem_append_right before hu)).1
    refine .inr ⟨rfl, a.log ++ before, w, later, ?_, hqueued, hbelow w List.mem_cons_self, ?_⟩
    · rw [hcontinues.log_eq, hnew, List.append_assoc]
    · intro u hu hlocation
      have hloop := hbelow u (List.mem_cons_of_mem w hu)
      rw [hlocation, Location.not_isStrictAncestorOf_self] at hloop
      exact absurd hloop Bool.false_ne_true

/-- **The log of a walk is sound.** The node and what is below it must not have been touched before,
    which need only hold where siblings have locations of their own. -/
theorem consistent_walk (registry : Registry) (maxDepth budget : Nat) {g : Graft} {l : Location}
    {above : List Step} {s : WalkState} (habove : Encloses above l) (hs : s.Consistent)
    (hfree : AddressableSteps above → s.edits.Untouched l) :
    (walk registry maxDepth budget g l above s).2.Consistent := by
  -- Over the budget. Callbacks at a node queue nothing below it, so that what is assumed of the
  -- queue holds again for the children.
  induction budget generalizing g l above s with
  | zero =>
    rw [walk]
    split
    · exact hs
    · exact hs
  | succ budget ih =>
    rw [walk]
    split
    · split
      · exact hs
      -- Nothing is queued at the node yet, so there is no edit that the rules could miss.
      · have hstart : AddressableSteps above → Aware .enter l g.node s.edits s.log := by
          intro hsteps e he
          rw [hfree hsteps l (Location.contains_self l)] at he
          exact absurd he.symm (Option.some_ne_none e)
        have hadvances := advances_runRules (p := ⟨⟨g, g.node, l⟩, above⟩) habove .enter
          (registry.lookup g.node.kind) s
        have henter := consistent_runRules (p := ⟨⟨g, g.node, l⟩, above⟩)
          (registry.lookup g.node.kind) habove hs hstart
        simp only
        split
        · rename_i s₁ heq
          rw [heq] at henter
          exact henter.1
        · rename_i entered s₁ heq
          rw [heq] at henter hadvances
          have hchildren : (walkChildren (fun i c => walk registry maxDepth budget
              (entered.child i c) (l.child i) (⟨entered, g.node, l⟩ :: above)) 0 none
              entered.node.children s₁).2.Consistent := by
            refine consistent_walkChildren (l := l)
              (A := AddressableSteps (⟨entered, g.node, l⟩ :: above)) ?_ ?_ none ?_ henter.1 ?_
            · intro i c s hs hfree
              exact ih (habove.child entered g.node i) hs hfree
            · intro i c s
              exact traces_walk registry maxDepth budget
                (fun m j hm => Location.contains_trans hm (m.contains_child j))
                (Location.contains_self _) (habove.child entered g.node i) s
            · intro hsteps
              rw [Nat.zero_add]
              exact hsteps _ List.mem_cons_self
            · intro hsteps j _
              exact hadvances.untouched_child
                (hfree fun st hst => hsteps st (List.mem_cons_of_mem _ hst)) _
          have htrace := traces_walkChildren registry maxDepth budget entered g.node habove s₁
          split
          · rename_i err s₂ heq₂
            rw [heq₂] at hchildren
            exact hchildren
          · rename_i children s₂ heq₂
            rw [heq₂] at hchildren htrace
            -- On exit the rules are shown the edits that were queued on entry, with the new
            -- children.
            obtain ⟨new, hcontinues⟩ := htrace henter.1.wellTimed
            have hexit := consistent_runRules
              (p := ⟨⟨Graft.ofNode (entered.node.withChildren children), g.node, l⟩, above⟩)
              (registry.lookup g.node.kind) habove hchildren
              (fun hsteps => (henter.2 entered rfl hsteps).exit hcontinues children)
            split
            · rename_i s₃ heq₃
              rw [heq₃] at hexit
              exact hexit.1
            · rename_i last s₃ heq₃
              rw [heq₃] at hexit
              exact hexit.1
    · exact hs

/-- **What callbacks see of earlier edits.** Whatever the rules, the settings, the tree and the
    depth limit, and whether or not the walk succeeds: if an edit is queued for the node of an
    invocation, it is a replacement, and the node that the callback sees has its payload. There is
    one exception: an exit callback does not see an edit that was queued from strictly below, as
    long as no callback at the node has queued anything since. A word must be able to count the
    children of each node above the node, as siblings share a location otherwise. -/
theorem traverse_shows_edits (registry : Registry) (maxDepth : Nat) (tree : Node) (c : Collector)
    (before : List Visit) (v : Visit) (after : List Visit)
    (hlog : (traverse registry maxDepth tree c).2.visits.toList = before ++ v :: after)
    (habove : ∀ st ∈ v.path.above, st.graft.node.children.length ≤ 2 ^ 32) (e : Edit)
    (he : v.edits.get? v.path.location = some e) :
    (∃ node, e.action = .replace node ∧ v.path.node.payload = node.payload) ∨
      v.phase = .exit ∧ e.Overlooked v.edits before := by
  have hstart : (WalkState.start c).Consistent := by
    refine ⟨fun m e he => absurd he.symm (Option.some_ne_none e), ?_⟩
    intro before v after hlog
    exact absurd hlog.symm (by simp [WalkState.log, WalkState.start])
  have hwalk : (traverse registry maxDepth tree c).2.Consistent :=
    consistent_walk registry maxDepth (maxDepth + 1) (fun _ h => absurd h List.not_mem_nil) hstart
      (fun _ _ _ => rfl)
  exact hwalk.sound before v after hlog habove e he

/-- Ask for an edit at every text. -/
def requesting (request : EditRequest) : Rule where
  name := "request"
  category := ⟨"SAMPLE"⟩
  accepts k := k = .text
  enter := some fun _ _ => { edits := [request] }
  exit := none

/-- Look at elements after their children. -/
def watching : Rule where
  name := "watch"
  category := ⟨"SAMPLE"⟩
  accepts k := k = .element
  enter := none
  exit := some fun _ _ => .nothing

/-- Rules for the sample: texts ask for an edit, and then elements are looked at. -/
def watchedRegistry (request : EditRequest) : Registry where
  rules := [requesting request, watching]
  supports _ := true
  names_nodup := show ["request", "watch"].Nodup by decide

/-- The invocations of a pass over the sample in which texts ask for an edit. -/
def watchedVisits (request : EditRequest) : List Visit :=
  (traverse (watchedRegistry request) 8 sampleTree (Collector.new .applyFixes none)).2.visits.toList

/-- What is queued for the node of each invocation when texts ask to remove what is above them. -/
theorem watchedVisits_remove :
    ((watchedVisits (.remove 1)).map fun v =>
      (v.path.location, (v.edits.get? v.path.location).map (·.action)))
      = [(⟨[0, 0]⟩, none), (⟨[0, 1]⟩, none)] ++ (⟨[0]⟩, some .remove) :: [(⟨[2]⟩, none)] := by
  rfl

/-- When the list of the sample is looked at, its removal has been queued from below. -/
theorem traverse_shows_edits_sample :
    ∃ before v after e, watchedVisits (.remove 1) = before ++ v :: after ∧
      (∀ st ∈ v.path.above, st.graft.node.children.length ≤ 2 ^ 32) ∧
      v.path.location = ⟨[0]⟩ ∧ v.edits.get? v.path.location = some e ∧
      v.phase = .exit ∧ e.Overlooked v.edits before := by
  have habove : ∀ v ∈ watchedVisits (.remove 1), ∀ st ∈ v.path.above,
      st.graft.node.children.length ≤ 2 ^ 32 := by decide +kernel
  obtain ⟨before, rest, hlog, -, hrest⟩ := List.map_eq_append_iff.mp watchedVisits_remove
  obtain ⟨v, after, rfl, hv, -⟩ := List.map_eq_cons_iff.mp hrest
  simp only [Prod.mk.injEq, Option.map_eq_some_iff] at hv
  obtain ⟨hlocation, e, he, hremove⟩ := hv
  have hv := habove v (by simp [hlog])
  refine ⟨before, v, after, e, hlog, hv, hlocation, he, ?_⟩
  rcases traverse_shows_edits _ _ _ _ before v after hlog hv e he with ⟨node, hreplace, -⟩ | hexit
  · rw [hremove] at hreplace
    exact EditAction.noConfusion hreplace
  · exact hexit

/-- A list is shown as it was although it has been replaced from below, and it is looked at although
    it has been removed. -/
theorem traverse_hides_edits :
    (∃ v ∈ watchedVisits (.replace 1 (.ofNode (.ofPayload (.element "ol" [] false) []))),
        ∃ e node, v.edits.get? v.path.location = some e ∧ e.action = .replace node ∧
          v.path.node.payload ≠ node.payload) ∧
      ∃ v ∈ watchedVisits (.remove 1),
        ∃ e, v.edits.get? v.path.location = some e ∧ e.action = .remove := by
  constructor
  · have hvisits : ((watchedVisits
          (.replace 1 (.ofNode (.ofPayload (.element "ol" [] false) [])))).map fun v =>
        (v.path.node.payload, (v.edits.get? v.path.location).map (·.action)))
        = [(.text "a", none), (.text "b", none),
          (.element "ul" [] false, some (.replace (.ofPayload (.element "ol" [] false) []))),
          (.text "tail", none)] := by rfl
    obtain ⟨v, hv, hvalues⟩ := List.mem_map.mp (hvisits ▸ List.mem_cons_of_mem _
      (List.mem_cons_of_mem _ List.mem_cons_self))
    simp only [Prod.mk.injEq, Option.map_eq_some_iff] at hvalues
    obtain ⟨hpayload, e, he, hreplace⟩ := hvalues
    refine ⟨v, hv, e, _, he, hreplace, ?_⟩
    rw [hpayload]
    decide
  · obtain ⟨v, hv, hvalues⟩ := List.mem_map.mp (watchedVisits_remove ▸
      List.mem_append_right _ List.mem_cons_self)
    simp only [Prod.mk.injEq, Option.map_eq_some_iff] at hvalues
    obtain ⟨-, e, he, hremove⟩ := hvalues
    exact ⟨v, hv, e, he, hremove⟩

end TreeLint
