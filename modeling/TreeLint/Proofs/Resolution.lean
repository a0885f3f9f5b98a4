import Mathlib
import TreeLint.Edit.Resolution
import TreeLint.Proofs.EditQueue

namespace TreeLint

/-!
# What becomes of nested edits

`EditQueue.resolve` goes through the edits once and decides on each by the edits that it has kept
so far. That this is right rests on the order: whatever lies above an edit comes before it.

* `Edit.IsCarriedBy` says when a replacement shows an inner edit, and `carries_iff` that the test
  decides it.
* `EditQueue.outer?` is the one outermost edit above a location (`outer?_eq_some_iff`,
  `outer?_eq_none_iff`).
* `EditQueue.sorting` is the decision on each edit of a list by itself, from the whole queue;
  `foldl_add` shows that the single run makes the same decisions.
* `IsResolution` states what a resolution has to be, `resolve_isResolution` that `resolve` gives
  one.
-/

/-! ### Replacements that show an inner edit -/

/-- The outer edit replaced its node later than the inner edit was queued, and the replacement shows
    the inner edit: some part of it is structurally equal to the inner replacement, or the inner
    edit removes its node. -/
def Edit.IsCarriedBy (inner outer : Edit) : Prop :=
  ∃ node, outer.action = .replace node ∧ inner.queuedAt < outer.queuedAt ∧
    (inner.action = .remove ∨
      ∃ fixed, inner.action = .replace fixed ∧ ∃ m ∈ node.parts, (m == fixed) = true)

/-- The test of the resolution says whether the inner edit is carried by the outer one. -/
theorem Edit.carries_iff {outer inner : Edit} :
    outer.carries inner = true ↔ inner.IsCarriedBy outer := by
  unfold Edit.carries Edit.IsCarriedBy
  cases outer.action with
  | remove => simp
  | replace node =>
    cases inner.action with
    | remove => simp
    | replace fixed => simp [Node.holds_iff]

namespace EditQueue

variable {q : EditQueue}

/-! ### The outermost edit above a location -/

/-- The outermost edit strictly above a location. -/
def outer? (q : EditQueue) (l : Location) : Option Edit :=
  q.edits.find? fun o => o.location.isStrictAncestorOf l && decide (q.IsOutermost o.location)

/-- The search finds the outermost edit strictly above a location. -/
theorem outer?_eq_some_iff {l : Location} {o : Edit} :
    q.outer? l = some o ↔
      o ∈ q.edits ∧ o.location.isStrictAncestorOf l = true ∧ q.IsOutermost o.location := by
  have hfound : ∀ {e : Edit}, q.outer? l = some e →
      e ∈ q.edits ∧ e.location.isStrictAncestorOf l = true ∧ q.IsOutermost e.location := by
    intro e he
    have hp := List.find?_some he
    rw [Bool.and_eq_true, decide_eq_true_eq] at hp
    exact ⟨List.mem_of_find?_eq_some he, hp⟩
  constructor
  · exact hfound
  · rintro ⟨ho, hol, hoo⟩
    have hsome : (q.outer? l).isSome = true := by
      unfold outer?
      rw [List.find?_isSome]
      exact ⟨o, ho, by simp [hol, hoo]⟩
    obtain ⟨e, he⟩ := Option.isSome_iff_exists.mp hsome
    obtain ⟨hmem, hel, heo⟩ := hfound he
    rw [he, outermost_above_unique hmem ho hel hol heo hoo]

/-- It finds nothing exactly at outermost locations. -/
theorem outer?_eq_none_iff {l : Location} : q.outer? l = none ↔ q.IsOutermost l := by
  constructor
  · intro h
    by_contra hout
    obtain ⟨o, ho, hol, hoo⟩ := exists_outermost_above hout
    rw [outer?_eq_some_iff.mpr ⟨ho, hol, hoo⟩] at h
    exact absurd h (Option.some_ne_none o)
  · intro h
    cases ho : q.outer? l with
    | none => rfl
    | some o =>
      obtain ⟨hmem, hol, -⟩ := outer?_eq_some_iff.mp ho
      exact absurd (h o hmem) (by simp [hol])

/-! ### Deciding on each edit by itself -/

/-- The conflict in which an edit loses. -/
def conflictOf? (q : EditQueue) (e : Edit) : Option Conflict :=
  (q.outer? e.location).bind fun o =>
    if o.carries e then none else some ⟨o.location, e.location⟩

/-- The location of an edit with that of the edit which carries it. -/
def absorptionOf? (q : EditQueue) (e : Edit) : Option (Location × Location) :=
  (q.outer? e.location).bind fun o =>
    if o.carries e then some (e.location, o.location) else none

/-- What becomes of the edits of a list, each decided on by the whole queue. -/
def sorting (q : EditQueue) (es : List Edit) : Sorting where
  kept := es.filter fun e => decide (q.IsOutermost e.location)
  conflicts := es.filterMap q.conflictOf?
  absorbed := es.filterMap q.absorptionOf?

/-- Among the edits before `e` that are kept there is the outermost edit above `e`, if there is one
    at all: it comes before `e`. -/
theorem findSome?_keptAt? {es : List Edit} {e : Edit} (h : es ++ [e] <+: q.edits) :
    e.location.ancestors.findSome? (q.sorting es).keptAt? = q.outer? e.location := by
  obtain ⟨rest, hrest⟩ := h
  have hsub : ∀ x ∈ es, x ∈ q.edits := by
    intro x hx
    rw [← hrest]
    simp [hx]
  -- The edits from `e` on are not above `e`.
  have hbefore : ∀ x ∈ q.edits, x.location.isStrictAncestorOf e.location = true → x ∈ es := by
    intro x hx hxe
    have hlt := Location.lt_of_isStrictAncestorOf hxe
    have hsorted := q.sorted
    rw [← hrest] at hx hsorted
    rw [List.append_assoc, List.singleton_append] at hx hsorted
    rcases List.mem_append.mp hx with hx | hx
    · exact hx
    · rcases List.mem_cons.mp hx with rfl | hx
      · exact absurd hlt (Location.lt_irrefl _)
      · have hcons := (List.pairwise_append.mp hsorted).2.1
        have hgt := List.rel_of_pairwise_cons hcons hx
        exact absurd (Location.lt_trans hlt hgt) (Location.lt_irrefl _)
  have hkept : ∀ {l : Location} {o : Edit}, (q.sorting es).keptAt? l = some o →
      o ∈ q.edits ∧ o.location = l ∧ q.IsOutermost o.location := by
    intro l o ho
    have hmem := List.mem_filter.mp (List.mem_of_find?_eq_some ho)
    exact ⟨hsub o hmem.1, Edit.location_of_find? ho, of_decide_eq_true hmem.2⟩
  cases ho : q.outer? e.location with
  | none =>
    rw [List.findSome?_eq_none_iff]
    intro a ha
    by_contra hne
    obtain ⟨o, hk⟩ := Option.ne_none_iff_exists'.mp hne
    obtain ⟨hmem, rfl, -⟩ := hkept hk
    exact absurd (outer?_eq_none_iff.mp ho o hmem) (by simp [Location.mem_ancestors.mp ha])
  | some o =>
    obtain ⟨hmem, hoe, hoo⟩ := outer?_eq_some_iff.mp ho
    have hin : o ∈ (q.sorting es).kept :=
      List.mem_filter.mpr ⟨hbefore o hmem hoe, decide_eq_true hoo⟩
    have hsome : (e.location.ancestors.findSome? (q.sorting es).keptAt?).isSome = true := by
      rw [List.findSome?_isSome_iff]
      refine ⟨o.location, Location.mem_ancestors.mpr hoe, ?_⟩
      unfold Sorting.keptAt?
      rw [List.find?_isSome]
      exact ⟨o, hin, by simp⟩
    obtain ⟨o', ho'⟩ := Option.isSome_iff_exists.mp hsome
    obtain ⟨a, ha, hk⟩ := List.exists_of_findSome?_eq_some ho'
    obtain ⟨hmem', rfl, hoo'⟩ := hkept hk
    rw [ho', outermost_above_unique hmem' hmem (Location.mem_ancestors.mp ha) hoe hoo' hoo]

/-- One step of the run makes the decision on the next edit. -/
theorem add_sorting {es : List Edit} {e : Edit} (h : es ++ [e] <+: q.edits) :
    (q.sorting es).add e = q.sorting (es ++ [e]) := by
  unfold Sorting.add
  rw [findSome?_keptAt? h]
  cases ho : q.outer? e.location with
  | none =>
    have hout := outer?_eq_none_iff.mp ho
    simp [sorting, conflictOf?, absorptionOf?, ho, hout]
  | some o =>
    have hout : ¬ q.IsOutermost e.location := by
      rw [← outer?_eq_none_iff, ho]
      exact Option.some_ne_none o
    by_cases hc : o.carries e = true
    · simp [sorting, conflictOf?, absorptionOf?, ho, hout, hc]
    · simp [sorting, conflictOf?, absorptionOf?, ho, hout, hc]

/-- **The run decides on each edit as if by itself.** -/
theorem foldl_add {es : List Edit} (h : es <+: q.edits) :
    es.foldl Sorting.add Sorting.start = q.sorting es := by
  induction es using List.reverseRecOn with
  | nil => rfl
  | append_singleton es e ih =>
    rw [List.foldl_append, ih ((List.prefix_append es [e]).trans h)]
    exact add_sorting h

/-! ### The results of `resolve` -/

/-- The edits that are kept are those at outermost locations, in order. -/
theorem kept_resolve (q : EditQueue) :
    q.resolve.kept.edits = q.edits.filter fun e => decide (q.IsOutermost e.location) := by
  unfold resolve
  rw [foldl_add List.prefix_rfl]
  exact edits_ofList (q.sorted.filter _)

/-- Every edit is looked at by itself for a conflict. -/
theorem conflicts_resolve (q : EditQueue) :
    q.resolve.conflicts = q.edits.filterMap q.conflictOf? := by
  unfold resolve
  rw [foldl_add List.prefix_rfl]
  rfl

/-- Every edit is looked at by itself for an absorption. -/
theorem absorbed_resolve (q : EditQueue) :
    q.resolve.absorbed = q.edits.filterMap q.absorptionOf? := by
  unfold resolve
  rw [foldl_add List.prefix_rfl]
  rfl

/-- Kept is what lies below no other edit. -/
theorem mem_kept_resolve {e : Edit} :
    e ∈ q.resolve.kept.edits ↔ e ∈ q.edits ∧ q.IsOutermost e.location := by
  rw [kept_resolve, List.mem_filter, decide_eq_true_eq]

/-- The kept edit at a location is the outermost edit queued there. -/
theorem get?_kept_resolve {l : Location} {e : Edit} :
    q.resolve.kept.get? l = some e ↔ q.get? l = some e ∧ q.IsOutermost l := by
  rw [get?_eq_some_iff, get?_eq_some_iff, mem_kept_resolve]
  constructor
  · rintro ⟨⟨he, hout⟩, rfl⟩
    exact ⟨⟨he, rfl⟩, hout⟩
  · rintro ⟨⟨he, rfl⟩, hout⟩
    exact ⟨⟨he, hout⟩, rfl⟩

/-- An edit is dropped below a kept edit exactly if that is the outermost edit above it. -/
theorem outer?_eq_some_iff_kept {l : Location} {o : Edit} :
    q.outer? l = some o ↔
      o ∈ q.resolve.kept.edits ∧ o.location.isStrictAncestorOf l = true := by
  rw [outer?_eq_some_iff, mem_kept_resolve]
  tauto

/-- Each edit of a list is recorded once, in one of three ways. -/
theorem perm_sorting (q : EditQueue) (es : List Edit) :
    List.Perm
      ((q.sorting es).kept.map (·.location) ++ (q.sorting es).conflicts.map (·.discarded)
        ++ (q.sorting es).absorbed.map (·.1))
      (es.map (·.location)) := by
  induction es with
  | nil => exact List.Perm.refl _
  | cons e es ih =>
    simp only [sorting] at ih ⊢
    rw [List.map_cons]
    -- An edit is kept, absorbed or lost in a conflict, and goes to exactly one of the lists.
    cases ho : q.outer? e.location with
    | none =>
      have hout := outer?_eq_none_iff.mp ho
      have hc : q.conflictOf? e = none := by simp [conflictOf?, ho]
      have ha : q.absorptionOf? e = none := by simp [absorptionOf?, ho]
      rw [List.filter_cons_of_pos (by simpa using hout), List.filterMap_cons_none hc,
        List.filterMap_cons_none ha]
      exact ih.cons e.location
    | some o =>
      have hout : ¬ q.IsOutermost e.location := by
        rw [← outer?_eq_none_iff, ho]
        exact Option.some_ne_none o
      rw [List.filter_cons_of_neg (by simpa using hout)]
      by_cases hcar : o.carries e = true
      · have hc : q.conflictOf? e = none := by simp [conflictOf?, ho, hcar]
        have ha : q.absorptionOf? e = some (e.location, o.location) := by
          simp [absorptionOf?, ho, hcar]
        rw [List.filterMap_cons_none hc, List.filterMap_cons_some ha, List.map_cons]
        exact List.perm_middle.trans (ih.cons e.location)
      · have hc : q.conflictOf? e = some ⟨o.location, e.location⟩ := by
          simp [conflictOf?, ho, hcar]
        have ha : q.absorptionOf? e = none := by simp [absorptionOf?, ho, hcar]
        rw [List.filterMap_cons_some hc, List.filterMap_cons_none ha, List.map_cons,
          List.append_assoc, List.cons_append]
        refine List.perm_middle.trans (List.Perm.cons e.location ?_)
        rw [← List.append_assoc]
        exact ih

/-- A conflict is an edit below a kept one that does not carry it. -/
theorem mem_conflicts_resolve {c : Conflict} :
    c ∈ q.resolve.conflicts ↔
      ∃ e ∈ q.edits, ∃ o ∈ q.resolve.kept.edits, o.location.isStrictAncestorOf e.location = true ∧
        ¬ e.IsCarriedBy o ∧ c = ⟨o.location, e.location⟩ := by
  rw [conflicts_resolve, List.mem_filterMap]
  simp only [conflictOf?, Option.bind_eq_some_iff, outer?_eq_some_iff_kept]
  constructor
  · rintro ⟨e, he, o, ⟨ho, hoe⟩, h⟩
    by_cases hcar : o.carries e = true
    · simp [hcar] at h
    · rw [if_neg hcar, Option.some.injEq] at h
      exact ⟨e, he, o, ho, hoe, fun hb => hcar (Edit.carries_iff.mpr hb), h.symm⟩
  · rintro ⟨e, he, o, ho, hoe, hcar, rfl⟩
    refine ⟨e, he, o, ⟨ho, hoe⟩, ?_⟩
    rw [if_neg fun hb => hcar (Edit.carries_iff.mp hb)]

/-- Absorbed is an edit below a kept one that carries it. -/
theorem mem_absorbed_resolve {p : Location × Location} :
    p ∈ q.resolve.absorbed ↔
      ∃ e ∈ q.edits, ∃ o ∈ q.resolve.kept.edits, o.location.isStrictAncestorOf e.location = true ∧
        e.IsCarriedBy o ∧ p = (e.location, o.location) := by
  rw [absorbed_resolve, List.mem_filterMap]
  simp only [absorptionOf?, Option.bind_eq_some_iff, outer?_eq_some_iff_kept]
  constructor
  · rintro ⟨e, he, o, ⟨ho, hoe⟩, h⟩
    by_cases hcar : o.carries e = true
    · rw [if_pos hcar, Option.some.injEq] at h
      exact ⟨e, he, o, ho, hoe, Edit.carries_iff.mp hcar, h.symm⟩
    · simp [hcar] at h
  · rintro ⟨e, he, o, ho, hoe, hcar, rfl⟩
    refine ⟨e, he, o, ⟨ho, hoe⟩, ?_⟩
    rw [if_pos (Edit.carries_iff.mpr hcar)]

/-- Conflicts come in the order of the edits that lost. -/
theorem pairwise_conflicts_resolve (q : EditQueue) :
    q.resolve.conflicts.Pairwise (·.discarded < ·.discarded) := by
  have hdiscarded : ∀ {e : Edit} {c : Conflict}, q.conflictOf? e = some c →
      c.discarded = e.location := by
    intro e c hc
    unfold conflictOf? at hc
    obtain ⟨o, -, hc⟩ := Option.bind_eq_some_iff.mp hc
    split at hc
    · exact absurd hc.symm (Option.some_ne_none c)
    · rw [Option.some.injEq] at hc
      rw [← hc]
  rw [conflicts_resolve]
  refine List.Pairwise.filterMap _ ?_ q.sorted
  intro a b hlt c hc d hd
  rw [hdiscarded hc, hdiscarded hd]
  exact hlt

end EditQueue

/-! ### The partition -/

/-- What the resolution of the edits of a queue has to be. -/
structure IsResolution (q : EditQueue) (r : Resolution) : Prop where
  /-- Kept are exactly the edits that lie below no other edit, as they were queued. -/
  kept : r.kept.edits = q.edits.filter fun e => decide (q.IsOutermost e.location)
  /-- No kept edit lies strictly above another. -/
  unnested : ∀ a ∈ r.kept.edits, ∀ b ∈ r.kept.edits,
    a.location.isStrictAncestorOf b.location = false
  /-- The three lists together record the locations of the queue, no more and no fewer, … -/
  complete : List.Perm
    (r.kept.edits.map (·.location) ++ r.conflicts.map (·.discarded) ++ r.absorbed.map (·.1))
    (q.edits.map (·.location))
  /-- … and none of them twice. -/
  distinct :
    (r.kept.edits.map (·.location) ++ r.conflicts.map (·.discarded) ++ r.absorbed.map (·.1)).Nodup
  /-- Exactly one kept edit lies above an edit that is not kept. -/
  outer : ∀ e ∈ q.edits, e ∉ r.kept.edits →
    ∃! o, o ∈ r.kept.edits ∧ o.location.isStrictAncestorOf e.location = true
  /-- Absorbed are the edits that the kept edit above them carries. -/
  absorbed_iff : ∀ p, p ∈ r.absorbed ↔
    ∃ e ∈ q.edits, ∃ o ∈ r.kept.edits, o.location.isStrictAncestorOf e.location = true ∧
      e.IsCarriedBy o ∧ p = (e.location, o.location)
  /-- Conflicts are between the other edits that are not kept and the kept edit above them. -/
  conflict_iff : ∀ c, c ∈ r.conflicts ↔
    ∃ e ∈ q.edits, ∃ o ∈ r.kept.edits, o.location.isStrictAncestorOf e.location = true ∧
      ¬ e.IsCarriedBy o ∧ c = ⟨o.location, e.location⟩
  /-- Conflicts come in location order. -/
  ordered : r.conflicts.Pairwise (·.discarded < ·.discarded)

/-- **Resolution partitions a queue.** Every edit is kept, absorbed or lost in a conflict, each in
    one way, and which of these it is depends only on the outermost edit above it. -/
theorem resolve_isResolution (q : EditQueue) : IsResolution q q.resolve where
  kept := q.kept_resolve
  unnested := by
    intro a ha b hb
    exact (EditQueue.mem_kept_resolve.mp hb).2 a (EditQueue.mem_kept_resolve.mp ha).1
  complete := by
    rw [q.kept_resolve, q.conflicts_resolve, q.absorbed_resolve]
    exact q.perm_sorting q.edits
  distinct := by
    rw [q.kept_resolve, q.conflicts_resolve, q.absorbed_resolve]
    exact (q.perm_sorting q.edits).nodup_iff.mpr q.nodup_locations
  outer := by
    intro e he hkept
    have hout : ¬ q.IsOutermost e.location := fun h =>
      hkept (EditQueue.mem_kept_resolve.mpr ⟨he, h⟩)
    obtain ⟨o, ho, hoe, hoo⟩ := EditQueue.exists_outermost_above hout
    refine ⟨o, ⟨EditQueue.mem_kept_resolve.mpr ⟨ho, hoo⟩, hoe⟩, ?_⟩
    rintro o' ⟨ho', hoe'⟩
    obtain ⟨hmem', hoo'⟩ := EditQueue.mem_kept_resolve.mp ho'
    exact EditQueue.outermost_above_unique hmem' ho hoe' hoe hoo' hoo
  absorbed_iff _ := EditQueue.mem_absorbed_resolve
  conflict_iff _ := EditQueue.mem_conflicts_resolve
  ordered := q.pairwise_conflicts_resolve

end TreeLint
