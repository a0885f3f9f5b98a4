import Mathlib
import TreeLint.Proofs.Application

namespace TreeLint

/-!
# The order in which edits are queued

The queue dates its edits, and resolution looks at the dates to tell edits that a replacement
carries from edits that it overrides. Nothing else depends on them.

* `EditQueue.SameEdits`: two queues hold the same edits, whatever their dates.
* `SameEdits.rebuild` and `SameEdits.kept`: the dates matter neither to rebuilding nor to which
  edits are kept. `perm_dropped`: the two lists of edits that are dropped are together one list, and
  that one does not depend on the dates either (`SameEdits.drops`).
* `perm_pushAll`: pushes at distinct locations put the given edits into the queue. So the order of
  the pushes shows in the dates only (`sameEdits_pushAll`), also if they come from patches
  (`suggestionQueue_of_nodup`).
* `applyEdits_perm` is the result. In the sample after it the order decides whether an edit is
  absorbed or lost in a conflict.
-/

/-! ### Edits without their dates -/

/-- The edit as if it had been queued before all others. -/
def Edit.undated (e : Edit) : Edit := { e with queuedAt := 0 }

theorem Edit.location_comp_undated : Edit.location ∘ Edit.undated = Edit.location := rfl

namespace EditQueue

variable {q q' : EditQueue}

/-- The queues hold the same edits, which may have been queued at different times. -/
def SameEdits (q q' : EditQueue) : Prop := q.edits.map Edit.undated = q'.edits.map Edit.undated

/-- The same edits are queued at the same locations. -/
theorem SameEdits.locations (h : q.SameEdits q') :
    q.edits.map (·.location) = q'.edits.map (·.location) := by
  have hmap := congrArg (List.map Edit.location) h
  rwa [List.map_map, List.map_map, Edit.location_comp_undated] at hmap

/-- What is queued at a location is the same, but for its date. -/
theorem SameEdits.get? (h : q.SameEdits q') (l : Location) :
    (q.get? l).map Edit.undated = (q'.get? l).map Edit.undated := by
  have hfind := congrArg (List.find? fun e => decide (e.location = l)) h
  rwa [List.find?_map, List.find?_map] at hfind

/-- The other queue has an edit with the same node and the same action. -/
theorem SameEdits.exists_get? (h : q.SameEdits q') {l : Location} {e : Edit}
    (he : q.get? l = some e) :
    ∃ e', q'.get? l = some e' ∧ e'.found = e.found ∧ e'.action = e.action := by
  have hmap := h.get? l
  rw [he, Option.map_some] at hmap
  obtain ⟨e', he', hsame⟩ := Option.map_eq_some_iff.mp hmap.symm
  have hfound : e'.undated.found = e.undated.found := congrArg Edit.found hsame
  have haction : e'.undated.action = e.undated.action := congrArg Edit.action hsame
  exact ⟨e', he', hfound, haction⟩

/-- Where nothing is queued in one, nothing is in the other. -/
theorem SameEdits.get?_eq_none (h : q.SameEdits q') {l : Location} (he : q.get? l = none) :
    q'.get? l = none := by
  have hmap := h.get? l
  rw [he, Option.map_none] at hmap
  exact Option.map_eq_none_iff.mp hmap.symm

/-- The test for edits within a location gives the same answer. -/
theorem SameEdits.hasWithin (h : q.SameEdits q') (l : Location) :
    q.hasWithin l = q'.hasWithin l := by
  have hiff : ∀ q : EditQueue, q.hasWithin l = true ↔
      ∃ m ∈ q.edits.map (·.location), l.contains m = true := by
    intro q
    rw [hasWithin_iff]
    simp
  rw [Bool.eq_iff_iff, hiff, hiff, h.locations]

/-- The same locations are outermost. -/
theorem SameEdits.isOutermost_iff (h : q.SameEdits q') (l : Location) :
    q.IsOutermost l ↔ q'.IsOutermost l := by
  have hiff : ∀ q : EditQueue, q.IsOutermost l ↔
      ∀ m ∈ q.edits.map (·.location), m.isStrictAncestorOf l = false := by
    intro q
    rw [List.forall_mem_map]
    rfl
  rw [hiff, hiff, h.locations]

/-- The same edits are kept. -/
theorem SameEdits.kept (h : q.SameEdits q') : q.resolve.kept.SameEdits q'.resolve.kept := by
  -- Whether an edit is outermost is a matter of locations, so the dates may be forgotten first.
  have hkept : ∀ q : EditQueue, q.resolve.kept.edits.map Edit.undated
      = (q.edits.map Edit.undated).filter fun e => decide (q.IsOutermost e.location) := by
    intro q
    rw [kept_resolve, List.filter_map]
    rfl
  unfold SameEdits
  rw [hkept, hkept, h]
  refine List.filter_congr fun e _ => ?_
  exact decide_eq_decide.mpr (h.isOutermost_iff e.location)

end EditQueue

/-- **The dates do not matter to rebuilding.** -/
theorem EditQueue.SameEdits.rebuild {q q' : EditQueue} (h : q.SameEdits q') (l : Location)
    (n : Node) : rebuild q l n = rebuild q' l n := by
  induction n generalizing l with
  | node payload span cs ih =>
    have hchild : ∀ p ∈ cs.zipIdx, TreeLint.rebuild q (l.child p.2) p.1
        = TreeLint.rebuild q' (l.child p.2) p.1 :=
      fun p hp => ih p.1 (List.fst_mem_of_mem_zipIdx hp) (l.child p.2)
    have hbelow : rebuildAll q l 0 cs = rebuildAll q' l 0 cs := by
      rw [rebuildAll_eq, rebuildAll_eq]
      congr 1
      · exact List.flatMap_congr fun p hp => by rw [hchild p hp]
      · exact List.flatMap_congr fun p hp => by rw [hchild p hp]
      · exact List.flatMap_congr fun p hp => by rw [hchild p hp]
    rw [TreeLint.rebuild, TreeLint.rebuild, h.hasWithin l, hbelow]
    cases he : q.get? l with
    | none => rw [h.get?_eq_none he]
    | some e =>
      obtain ⟨e', he', hfound, haction⟩ := h.exists_get? he
      rw [he']
      simp only [hfound, haction]

/-! ### Edits that are dropped -/

/-- The locations of the edits that were dropped, each with the location of the edit above that was
    kept. -/
def Applied.dropped (a : Applied) : List (Location × Location) :=
  a.conflicts.map (fun c => (c.discarded, c.kept)) ++ a.absorbed

namespace EditQueue

/-- The location of the outermost edit strictly above a location. -/
def outerLocation? (q : EditQueue) (l : Location) : Option Location :=
  (q.outer? l).map (·.location)

/-- The locations of the edits that lie below others, each with that of the outermost edit above
    it. -/
def drops (q : EditQueue) : List (Location × Location) :=
  (q.edits.map (·.location)).filterMap fun l => (q.outerLocation? l).map fun o => (l, o)

variable {q q' : EditQueue}

/-- The outer location is that of the outermost edit strictly above, of which there is only one. -/
theorem outerLocation?_eq_some_iff {l m : Location} :
    q.outerLocation? l = some m ↔
      m ∈ q.edits.map (·.location) ∧ m.isStrictAncestorOf l = true ∧ q.IsOutermost m := by
  unfold outerLocation?
  rw [Option.map_eq_some_iff, List.mem_map]
  constructor
  · rintro ⟨o, ho, rfl⟩
    obtain ⟨hmem, hrest⟩ := outer?_eq_some_iff.mp ho
    exact ⟨⟨o, hmem, rfl⟩, hrest⟩
  · rintro ⟨⟨o, hmem, rfl⟩, hrest⟩
    exact ⟨o, outer?_eq_some_iff.mpr ⟨hmem, hrest⟩, rfl⟩

/-- The same edits are dropped, for the same reasons. -/
theorem SameEdits.drops (h : q.SameEdits q') : q.drops = q'.drops := by
  have houter : ∀ l, q.outerLocation? l = q'.outerLocation? l := by
    intro l
    apply Option.ext
    intro m
    rw [outerLocation?_eq_some_iff, outerLocation?_eq_some_iff, h.locations, h.isOutermost_iff]
  unfold EditQueue.drops
  rw [h.locations]
  simp only [houter]

/-- **Every edit that is dropped is recorded once**, with the outermost edit above it, as a conflict
    or as absorbed. -/
theorem perm_dropped (tree : Node) (q : EditQueue) : (applyEdits tree q).dropped.Perm q.drops := by
  have hlists : ∀ es : List Edit,
      ((es.filterMap q.conflictOf?).map (fun c => (c.discarded, c.kept))
        ++ es.filterMap q.absorptionOf?).Perm
      ((es.map (·.location)).filterMap fun l => (q.outerLocation? l).map fun o => (l, o)) := by
    intro es
    induction es with
    | nil => exact List.Perm.refl _
    | cons e es ih =>
      unfold conflictOf? absorptionOf? outerLocation? at ih ⊢
      simp only [List.filterMap_cons, List.map_cons]
      cases ho : q.outer? e.location with
      | none => simpa using ih
      | some o =>
        by_cases hcar : o.carries e = true
        · simp only [Option.bind_some, hcar, if_true, Option.map_some]
          exact List.perm_middle.trans (ih.cons _)
        · simp only [Option.bind_some, hcar, Bool.false_eq_true, if_false, Option.map_some,
            List.map_cons, List.cons_append]
          exact ih.cons _
  obtain ⟨hconflicts, habsorbed⟩ := resolution_applyEdits tree q
  unfold Applied.dropped
  rw [hconflicts, habsorbed, conflicts_resolve, absorbed_resolve]
  exact hlists q.edits

end EditQueue

/-- The results are the same, but for whether an edit that was dropped counts as absorbed or as
    lost in a conflict. -/
structure Applied.Agrees (a b : Applied) : Prop where
  tree : a.tree = b.tree
  applied : a.applied = b.applied
  stale : a.stale = b.stale
  /-- The same locations were dropped, each below the same edit. -/
  dropped : a.dropped.Perm b.dropped

/-- **The dates decide between absorption and conflict only.** -/
theorem EditQueue.SameEdits.agrees {q q' : EditQueue} (h : q.SameEdits q') (tree : Node) :
    (applyEdits tree q).Agrees (applyEdits tree q') := by
  have hrebuild := h.kept.rebuild Location.root tree
  have hdropped := (q.perm_dropped tree).trans (h.drops ▸ (q'.perm_dropped tree).symm)
  refine ⟨?_, ?_, ?_, hdropped⟩
  · unfold applyEdits
    simp only [hrebuild]
    split <;> rfl
  · unfold applyEdits
    simp only [hrebuild]
    split <;> rfl
  · unfold applyEdits
    simp only [hrebuild]
    split <;> rfl

/-! ### Pushing edits in turn -/

/-- An edit at a new location is added to the others. -/
theorem Edit.perm_insertWith (merge : Edit → Edit → Edit) {e : Edit} {xs : List Edit}
    (h : ∀ x ∈ xs, x.location ≠ e.location) : (insertWith merge e xs).Perm (e :: xs) := by
  induction xs with
  | nil => exact List.Perm.refl _
  | cons x xs ih =>
    rw [insertWith]
    split
    · exact List.Perm.refl _
    · have hrest := ih fun y hy => h y (List.mem_cons_of_mem x hy)
      exact (hrest.cons x).trans (List.Perm.swap e x xs)
    · rename_i heq
      exact absurd (Location.compare_eq_eq_iff.mp heq).symm (h x List.mem_cons_self)

namespace EditQueue

/-- Push the edits of a list in turn. Their own dates do not matter. -/
def pushAll (q : EditQueue) (es : List Edit) : EditQueue :=
  es.foldl (fun q e => q.push e.location e.found e.action) q

/-- **Pushes at distinct new locations add the edits as they are given.** -/
theorem perm_pushAll {q : EditQueue} {es : List Edit} (hnew : ∀ e ∈ es, q.get? e.location = none)
    (hdistinct : (es.map (·.location)).Nodup) :
    ((q.pushAll es).edits.map Edit.undated).Perm
      (es.map Edit.undated ++ q.edits.map Edit.undated) := by
  induction es generalizing q with
  | nil => exact List.Perm.refl _
  | cons e es ih =>
    rw [List.map_cons, List.nodup_cons] at hdistinct
    have hpush : ((q.push e.location e.found e.action).edits.map Edit.undated).Perm
        (e.undated :: q.edits.map Edit.undated) := by
      have hinsert := Edit.perm_insertWith overwrite
        (e := ⟨e.location, e.found, e.action, q.revision + 1⟩)
        (get?_eq_none_iff.mp (hnew e List.mem_cons_self))
      exact hinsert.map Edit.undated
    -- The locations of the other edits are still new.
    have hrest := ih (q := q.push e.location e.found e.action) (fun d hd => by
      have hne : d.location ≠ e.location := fun heq =>
        hdistinct.1 (List.mem_map.mpr ⟨d, hd, heq⟩)
      rw [get?_push_of_ne q e.found e.action hne]
      exact hnew d (List.mem_cons_of_mem e hd)) hdistinct.2
    exact hrest.trans ((hpush.append_left _).trans List.perm_middle)

/-- Queues that hold the same edits hold them in the same order, which is that of their
    locations. -/
theorem sameEdits_of_perm {q q' : EditQueue}
    (h : (q.edits.map Edit.undated).Perm (q'.edits.map Edit.undated)) : q.SameEdits q' := by
  have hsorted : ∀ q : EditQueue,
      (q.edits.map Edit.undated).Pairwise (·.location < ·.location) := by
    intro q
    rw [List.pairwise_map]
    exact q.sorted
  refine h.eq_of_pairwise ?_ (hsorted q) (hsorted q')
  intro a b _ _ hab hba
  exact absurd (Location.lt_trans hab hba) (Location.lt_irrefl _)

/-- The order of pushes at distinct locations shows in the dates only. -/
theorem sameEdits_pushAll {es es' : List Edit} (hdistinct : (es.map (·.location)).Nodup)
    (h : es.Perm es') : (empty.pushAll es).SameEdits (empty.pushAll es') := by
  apply sameEdits_of_perm
  have hes := perm_pushAll (q := empty) (fun _ _ => rfl) hdistinct
  have hes' := perm_pushAll (q := empty) (fun _ _ => rfl)
    ((h.map (·.location)).nodup_iff.mp hdistinct)
  exact hes.trans (((h.map Edit.undated).append_right _).trans hes'.symm)

end EditQueue

/-! ### Patches -/

/-- The edit that a patch at a location asks for. -/
def Edit.ofSuggestion (s : Location × Patch) : Edit := ⟨s.1, s.2.old, .replace s.2.fixed, 0⟩

/-- Queue a patch, unless something is queued at its location. -/
def EditQueue.suggest (q : EditQueue) (s : Location × Patch) : EditQueue :=
  if (q.get? s.1).isSome then q else q.push s.1 s.2.old (.replace s.2.fixed)

theorem suggestionQueue_eq (ss : List (Location × Patch)) :
    suggestionQueue ss = ss.foldl EditQueue.suggest EditQueue.empty := rfl

/-- Patches at different new locations are queued one and all. -/
theorem EditQueue.foldl_suggest {q : EditQueue} {ss : List (Location × Patch)}
    (hnew : ∀ s ∈ ss, q.get? s.1 = none) (hdistinct : (ss.map (·.1)).Nodup) :
    ss.foldl suggest q = q.pushAll (ss.map Edit.ofSuggestion) := by
  induction ss generalizing q with
  | nil => rfl
  | cons s ss ih =>
    rw [List.map_cons, List.nodup_cons] at hdistinct
    have hfirst : q.suggest s = q.push s.1 s.2.old (.replace s.2.fixed) := by
      rw [suggest, hnew s List.mem_cons_self]
      rfl
    rw [List.foldl_cons, hfirst]
    refine ih (fun s' hs' => ?_) hdistinct.2
    have hne : s'.1 ≠ s.1 := fun heq => hdistinct.1 (List.mem_map.mpr ⟨s', hs', heq⟩)
    rw [get?_push_of_ne q s.2.old (.replace s.2.fixed) hne]
    exact hnew s' (List.mem_cons_of_mem s hs')

/-- Patches at distinct locations are pushed one after the other. -/
theorem suggestionQueue_of_nodup {ss : List (Location × Patch)} (h : (ss.map (·.1)).Nodup) :
    suggestionQueue ss = EditQueue.empty.pushAll (ss.map Edit.ofSuggestion) := by
  rw [suggestionQueue_eq]
  exact EditQueue.foldl_suggest (fun _ _ => rfl) h

/-- **The order of queueing does not matter to the tree.** For every tree: edits at distinct
    locations that are pushed in any order give the same tree, are made or found stale at the same
    locations, and are dropped at the same locations below the same edits; only whether an edit that
    is dropped counts as absorbed or as lost in a conflict is left open. The same holds for patches
    at distinct locations. -/
theorem applyEdits_perm (tree : Node) :
    (∀ es es' : List Edit, (es.map (·.location)).Nodup → es.Perm es' →
      (applyEdits tree (EditQueue.empty.pushAll es)).Agrees
        (applyEdits tree (EditQueue.empty.pushAll es'))) ∧
    ∀ ss ss' : List (Location × Patch), (ss.map (·.1)).Nodup → ss.Perm ss' →
      (applySuggestions tree ss).Agrees (applySuggestions tree ss') := by
  constructor
  · intro es es' hdistinct h
    exact (EditQueue.sameEdits_pushAll hdistinct h).agrees tree
  · intro ss ss' hdistinct h
    have hdistinct' := (h.map (·.1)).nodup_iff.mp hdistinct
    have hlocations : ((ss.map Edit.ofSuggestion).map (·.location)).Nodup := by
      rw [List.map_map]
      exact hdistinct
    unfold applySuggestions
    rw [suggestionQueue_of_nodup hdistinct, suggestionQueue_of_nodup hdistinct']
    exact (EditQueue.sameEdits_pushAll hlocations (h.map Edit.ofSuggestion)).agrees tree

/-- Patches of the sample: one of an item, one of the list that shows the first one, and one that is
    stale. -/
def nestedPatches : List (Location × Patch) :=
  [ (⟨[0, 1]⟩, ⟨.ofPayload (.text "b") [], .ofPayload (.text "c") []⟩),
    (⟨[0]⟩,
      ⟨.ofPayload (.element "ul" [] false)
          [.ofPayload (.text "a") [], .ofPayload (.text "b") []],
        .ofPayload (.element "ul" [] false)
          [.ofPayload (.text "a") [], .ofPayload (.text "c") []]⟩),
    (⟨[2]⟩, ⟨.ofPayload (.text "head") [], .ofPayload (.text "c") []⟩) ]

/-- If the list is patched after the item, it carries the patch of the item; if it is patched
    before, the patch of the item is lost in a conflict. The rest is the same. -/
theorem applyEdits_perm_nestedPatches :
    (nestedPatches.map (·.1)).Nodup ∧
      (applySuggestions sampleTree nestedPatches).absorbed = [(⟨[0, 1]⟩, ⟨[0]⟩)] ∧
      (applySuggestions sampleTree nestedPatches.reverse).conflicts = [⟨⟨[0]⟩, ⟨[0, 1]⟩⟩] ∧
      (applySuggestions sampleTree nestedPatches).stale = [⟨[2]⟩] ∧
      (applySuggestions sampleTree nestedPatches).Agrees
        (applySuggestions sampleTree nestedPatches.reverse) ∧
      (applyEdits sampleTree (EditQueue.empty.pushAll (nestedPatches.map Edit.ofSuggestion))).Agrees
        (applyEdits sampleTree
          (EditQueue.empty.pushAll (nestedPatches.reverse.map Edit.ofSuggestion))) := by
  have hreverse : nestedPatches.Perm nestedPatches.reverse := nestedPatches.reverse_perm.symm
  exact ⟨by decide, by decide, by decide, by decide,
    (applyEdits_perm sampleTree).2 _ _ (by decide) hreverse,
    (applyEdits_perm sampleTree).1 _ _ (by decide) (hreverse.map Edit.ofSuggestion)⟩

end TreeLint
