import Mathlib
import TreeLint.Edit.Queue
import TreeLint.Proofs.Node

namespace TreeLint

/-!
# Reading an edit queue

Everything about a queue is said through `get?`: a queue is a finite map from locations to edits.

* `mem_edits_iff`: the edits of a queue are exactly what `get?` gives, so a location has one edit.
* `get?_push`: a push is seen at its own location only, and keeps what was remembered there; it
  takes no edit out of the queue (`extends_push`).
* `IsFirstFrom`: an edit is the first one that does not come before a location. `hasWithin_iff`: a
  look at it tells whether some edit lies at or below the location.
* `edits_ofList`: an ordered list of edits is the queue gathered from it.
* `IsOutermost`: no edit of the queue lies strictly above a location.
-/

namespace Edit

variable {merge : Edit → Edit → Edit}

/-- What is found at a location has that location. -/
theorem location_of_find? {xs : List Edit} {l : Location} {e : Edit}
    (h : xs.find? (·.location = l) = some e) : e.location = l := by
  have hp := List.find?_some h
  exact of_decide_eq_true hp

/-- Insertion is seen at the location of the new edit only. -/
theorem find?_insertWith (hmerge : ∀ old new, (merge old new).location = old.location) (e : Edit)
    {xs : List Edit} (hxs : xs.Pairwise (·.location < ·.location)) (m : Location) :
    (insertWith merge e xs).find? (·.location = m)
      = if m = e.location then
          some (((xs.find? (·.location = m)).map fun old => merge old e).getD e)
        else xs.find? (·.location = m) := by
  induction xs with
  | nil =>
    by_cases hm : m = e.location
    · simp [insertWith, hm]
    · simp [insertWith, hm, Ne.symm hm]
  | cons x xs ih =>
    obtain ⟨hx, hxs'⟩ := List.pairwise_cons.mp hxs
    rw [insertWith]
    split
    · -- The new edit comes first, and no edit of the list has its location.
      rename_i hlt
      have hlt := Location.compare_eq_lt_iff.mp hlt
      by_cases hm : m = e.location
      · subst hm
        have hnone : (x :: xs).find? (·.location = e.location) = none := by
          rw [List.find?_eq_none]
          intro y hy hye
          have hye : y.location = e.location := of_decide_eq_true hye
          rcases List.mem_cons.mp hy with rfl | hy
          · exact Location.lt_irrefl _ (hye ▸ hlt)
          · exact Location.lt_irrefl _ (Location.lt_trans hlt (hye ▸ hx y hy))
        rw [hnone]
        simp
      · rw [List.find?_cons_of_neg (by simpa using Ne.symm hm), if_neg hm]
    · -- The new edit comes later.
      rename_i hgt
      have hgt := Location.compare_eq_gt_iff.mp hgt
      by_cases hxm : x.location = m
      · have hm : m ≠ e.location := by
          rintro rfl
          exact Location.lt_irrefl _ (hxm ▸ hgt)
        rw [if_neg hm, List.find?_cons_of_pos (by simpa using hxm),
          List.find?_cons_of_pos (by simpa using hxm)]
      · rw [List.find?_cons_of_neg (by simpa using hxm), ih hxs',
          List.find?_cons_of_neg (by simpa using hxm)]
    · -- The new edit takes the place of `x`.
      rename_i heq
      have heq := Location.compare_eq_eq_iff.mp heq
      by_cases hm : m = e.location
      · subst hm
        rw [if_pos rfl, List.find?_cons_of_pos (by simp [hmerge, heq]),
          List.find?_cons_of_pos (by simp [heq])]
        rfl
      · have hxm : ¬ x.location = m := fun h => hm (h ▸ heq.symm)
        rw [if_neg hm, List.find?_cons_of_neg (by simpa [hmerge] using hxm),
          List.find?_cons_of_neg (by simpa using hxm)]

/-- An edit that comes after all others is put at the end. -/
theorem insertWith_of_last {e : Edit} {xs : List Edit} (h : ∀ x ∈ xs, x.location < e.location) :
    insertWith merge e xs = xs ++ [e] := by
  induction xs with
  | nil => rfl
  | cons x xs ih =>
    have hgt : e.location.compare x.location = .gt :=
      Location.compare_eq_gt_iff.mpr (h x List.mem_cons_self)
    rw [insertWith, hgt, ih fun y hy => h y (List.mem_cons_of_mem x hy)]
    rfl

end Edit

namespace EditQueue

/-! ### The map from locations to edits -/

/-- Each location has at most one edit. -/
theorem nodup_locations (q : EditQueue) : (q.edits.map (·.location)).Nodup := by
  rw [List.Nodup, List.pairwise_map]
  refine q.sorted.imp ?_
  intro a b hlt heq
  exact Location.lt_irrefl _ (heq ▸ hlt)

/-- What `get?` finds at a location is the edit of that location. -/
theorem get?_eq_some_iff {q : EditQueue} {l : Location} {e : Edit} :
    q.get? l = some e ↔ e ∈ q.edits ∧ e.location = l := by
  unfold get?
  constructor
  · intro h
    exact ⟨List.mem_of_find?_eq_some h, Edit.location_of_find? h⟩
  · rintro ⟨he, rfl⟩
    have hsome : (q.edits.find? (·.location = e.location)).isSome = true := by
      rw [List.find?_isSome]
      exact ⟨e, he, by simp⟩
    obtain ⟨e', he'⟩ := Option.isSome_iff_exists.mp hsome
    have hmem := List.mem_of_find?_eq_some he'
    have hloc := Edit.location_of_find? he'
    rw [he', List.inj_on_of_nodup_map q.nodup_locations hmem he hloc]

/-- The edits of a queue are those that are found at their own locations: no two of them share
    one. -/
theorem mem_edits_iff {q : EditQueue} {e : Edit} : e ∈ q.edits ↔ q.get? e.location = some e := by
  rw [get?_eq_some_iff]
  simp

/-- Nothing is found at a location exactly if no edit has it. -/
theorem get?_eq_none_iff {q : EditQueue} {l : Location} :
    q.get? l = none ↔ ∀ e ∈ q.edits, e.location ≠ l := by
  unfold get?
  rw [List.find?_eq_none]
  simp

/-- A queue is empty if nothing is found anywhere. -/
theorem isEmpty_iff {q : EditQueue} : q.isEmpty = true ↔ ∀ l, q.get? l = none := by
  unfold isEmpty
  rw [List.isEmpty_iff]
  constructor
  · intro h l
    rw [get?_eq_none_iff, h]
    intro e he
    exact absurd he List.not_mem_nil
  · intro h
    rw [List.eq_nil_iff_forall_not_mem]
    intro e he
    exact get?_eq_none_iff.mp (h e.location) e he rfl

/-- **A push is local.** It is seen at its own location only, where an edit that was queued before
    keeps what it remembers of the tree. -/
theorem get?_push (q : EditQueue) (l : Location) (found : Node) (action : EditAction)
    (m : Location) :
    (q.push l found action).get? m
      = if m = l then
          some ⟨l, ((q.get? l).map (·.found)).getD found, action, q.revision + 1⟩
        else q.get? m := by
  show (Edit.insertWith overwrite ⟨l, found, action, q.revision + 1⟩ q.edits).find?
    (·.location = m) = _
  rw [Edit.find?_insertWith (fun old new => show (overwrite old new).location = _ from rfl) _
    q.sorted]
  unfold get?
  by_cases hm : m = l
  · subst hm
    rw [if_pos rfl, if_pos rfl]
    cases hq : q.edits.find? (·.location = m) with
    | none => rfl
    | some old =>
      have hloc := Edit.location_of_find? hq
      simp [overwrite, hloc]
  · rw [if_neg hm, if_neg hm]

/-- At its own location a push keeps the node that was found first and sets the action. -/
theorem get?_push_self (q : EditQueue) (l : Location) (found : Node) (action : EditAction) :
    (q.push l found action).get? l
      = some ⟨l, ((q.get? l).map (·.found)).getD found, action, q.revision + 1⟩ := by
  rw [get?_push, if_pos rfl]

/-- Elsewhere a push changes nothing. -/
theorem get?_push_of_ne (q : EditQueue) {l m : Location} (found : Node) (action : EditAction)
    (h : m ≠ l) : (q.push l found action).get? m = q.get? m := by
  rw [get?_push, if_neg h]

/-- Every location with an edit in `q` has one in `q'`. -/
def Extends (q q' : EditQueue) : Prop :=
  ∀ l, (q.get? l).isSome = true → (q'.get? l).isSome = true

theorem Extends.refl (q : EditQueue) : q.Extends q := fun _ h => h

/-- A queue that extends an extension extends the first one. -/
theorem Extends.trans {q q' q'' : EditQueue} (h : q.Extends q') (h' : q'.Extends q'') :
    q.Extends q'' :=
  fun l hl => h' l (h l hl)

/-- Pushes take no edit out of the queue. -/
theorem extends_push (q : EditQueue) (l : Location) (found : Node) (action : EditAction) :
    q.Extends (q.push l found action) := by
  intro m hm
  rw [get?_push]
  split
  · rfl
  · exact hm

/-- An ordered list of edits is gathered into itself. -/
theorem edits_ofList {es : List Edit} (h : es.Pairwise (·.location < ·.location)) :
    (ofList es).edits = es := by
  induction es using List.reverseRecOn with
  | nil => rfl
  | append_singleton es e ih =>
    rw [List.pairwise_append] at h
    obtain ⟨hes, -, hlast⟩ := h
    have hstep : (ofList (es ++ [e])).edits = Edit.insertWith supplant e (ofList es).edits := by
      unfold ofList
      rw [List.foldl_append]
      rfl
    rw [hstep, ih hes]
    exact Edit.insertWith_of_last fun x hx => hlast x hx e (List.mem_singleton_self e)

/-! ### Edits along the tree -/

/-- `e` is the first edit that does not come before `l`. -/
structure IsFirstFrom (q : EditQueue) (l : Location) (e : Edit) : Prop where
  mem : e ∈ q.edits
  not_lt : ¬ e.location < l
  first : ∀ x ∈ q.edits, ¬ x.location < l → ¬ x.location < e.location

/-- What a search through the ordered edits finds is the first edit. -/
theorem isFirstFrom_of_find? {q : EditQueue} {l : Location} {e : Edit}
    (h : q.edits.find? (fun x => !(decide (x.location < l))) = some e) : q.IsFirstFrom l e := by
  obtain ⟨he, as, bs, hsplit, has⟩ := List.find?_eq_some_iff_append.mp h
  have hsorted := q.sorted
  refine ⟨List.mem_of_find?_eq_some h, by simpa using he, ?_⟩
  intro x hx hxl hxe
  rw [hsplit] at hx hsorted
  -- The edit `x` is not among those that were passed over, so it does not come before `e`.
  rcases List.mem_append.mp hx with hxa | hxb
  · exact absurd (has x hxa) (by simpa using hxl)
  · rcases List.mem_cons.mp hxb with rfl | hxb
    · exact Location.lt_irrefl _ hxe
    · have hcons := (List.pairwise_append.mp hsorted).2.1
      have hex := List.rel_of_pairwise_cons hcons hxb
      exact Location.lt_irrefl _ (Location.lt_trans hxe hex)

/-- If any edit is not before `l` then there is a first one. -/
theorem exists_find?_eq_some {q : EditQueue} {l : Location} {e : Edit} (he : e ∈ q.edits)
    (hge : ¬ e.location < l) :
    ∃ first, q.edits.find? (fun x => !(decide (x.location < l))) = some first := by
  rw [← Option.isSome_iff_exists, List.find?_isSome]
  exact ⟨e, he, by simpa using hge⟩

/-- There is only one first edit. -/
theorem IsFirstFrom.unique {q : EditQueue} {l : Location} {e e' : Edit} (h : q.IsFirstFrom l e)
    (h' : q.IsFirstFrom l e') : e = e' := by
  have heq : e.location = e'.location :=
    Location.eq_of_not_lt (h'.first e h.mem h.not_lt) (h.first e' h'.mem h'.not_lt)
  exact List.inj_on_of_nodup_map q.nodup_locations h.mem h'.mem heq

/-- The test for edits within a location looks at the first edit and at nothing else. -/
theorem hasWithin_iff_isFirstFrom {q : EditQueue} {l : Location} :
    q.hasWithin l = true ↔ ∃ e, q.IsFirstFrom l e ∧ l.contains e.location = true := by
  unfold hasWithin
  rw [Option.any_eq_true]
  constructor
  · rintro ⟨e, he, hc⟩
    exact ⟨e, isFirstFrom_of_find? he, hc⟩
  · rintro ⟨e, he, hc⟩
    obtain ⟨first, hfirst⟩ := exists_find?_eq_some he.mem he.not_lt
    obtain rfl := he.unique (isFirstFrom_of_find? hfirst)
    exact ⟨e, hfirst, hc⟩

/-- **One look is enough.** The first edit whose location is not smaller than `l` lies at or below
    `l` as soon as any edit does. -/
theorem hasWithin_iff {q : EditQueue} {l : Location} :
    q.hasWithin l = true ↔ ∃ e ∈ q.edits, l.contains e.location = true := by
  rw [hasWithin_iff_isFirstFrom]
  constructor
  · rintro ⟨e, he, hc⟩
    exact ⟨e, he.mem, hc⟩
  · rintro ⟨e, he, hc⟩
    have hge : ¬ e.location < l := Location.not_lt_of_contains hc
    obtain ⟨first, hfind⟩ := exists_find?_eq_some he hge
    have hfirst := isFirstFrom_of_find? hfind
    exact ⟨first, hfirst, Location.contains_of_between hfirst.not_lt (hfirst.first e he hge) hc⟩

/-- Nothing is queued at `l` or below it. -/
def Untouched (q : EditQueue) (l : Location) : Prop := ∀ m, l.contains m = true → q.get? m = none

/-- The test finds nothing exactly where nothing is queued. -/
theorem hasWithin_eq_false_iff {q : EditQueue} {l : Location} :
    q.hasWithin l = false ↔ q.Untouched l := by
  rw [Bool.eq_false_iff, ne_eq, hasWithin_iff]
  constructor
  · intro h m hm
    rw [get?_eq_none_iff]
    rintro e he rfl
    exact h ⟨e, he, hm⟩
  · rintro h ⟨e, he, hc⟩
    exact get?_eq_none_iff.mp (h e.location hc) e he rfl

/-- The test finds an edit at the location itself. -/
theorem hasWithin_of_get? {q : EditQueue} {l : Location} {e : Edit} (he : q.get? l = some e) :
    q.hasWithin l = true := by
  obtain ⟨hmem, rfl⟩ := get?_eq_some_iff.mp he
  exact hasWithin_iff.mpr ⟨e, hmem, Location.contains_self _⟩

/-- No edit of the queue lies strictly above `l`. -/
def IsOutermost (q : EditQueue) (l : Location) : Prop :=
  ∀ e ∈ q.edits, e.location.isStrictAncestorOf l = false

instance (q : EditQueue) (l : Location) : Decidable (q.IsOutermost l) :=
  inferInstanceAs (Decidable (∀ e ∈ q.edits, _))

/-- Nothing lies above the root. -/
theorem isOutermost_root (q : EditQueue) : q.IsOutermost Location.root :=
  fun e _ => Location.not_isStrictAncestorOf_root e.location

/-- A location that is not outermost has an edit above it. -/
theorem not_isOutermost_iff {q : EditQueue} {l : Location} :
    ¬ q.IsOutermost l ↔ ∃ e ∈ q.edits, e.location.isStrictAncestorOf l = true := by
  unfold IsOutermost
  simp

/-- With more edits fewer locations are outermost. -/
theorem IsOutermost.of_extends {q q' : EditQueue} {l : Location} (h : q.Extends q')
    (hl : q'.IsOutermost l) : q.IsOutermost l := by
  intro e he
  obtain ⟨e', he'⟩ := Option.isSome_iff_exists.mp
    (h e.location (by rw [mem_edits_iff.mp he]; rfl))
  obtain ⟨hmem, hloc⟩ := get?_eq_some_iff.mp he'
  rw [← hloc]
  exact hl e' hmem

/-- A location that is not outermost lies below the edit of a location that is. -/
theorem exists_outermost_above {q : EditQueue} {l : Location} (h : ¬ q.IsOutermost l) :
    ∃ e ∈ q.edits, e.location.isStrictAncestorOf l = true ∧ q.IsOutermost e.location := by
  -- Go up as long as some edit lies above; the depth of the location falls at each step.
  induction hd : l.indices.length using Nat.strong_induction_on generalizing l with
  | _ d ih =>
    obtain ⟨e, he, hel⟩ := not_isOutermost_iff.mp h
    by_cases hout : q.IsOutermost e.location
    · exact ⟨e, he, hel, hout⟩
    · have hlt := Location.length_lt_of_isStrictAncestorOf hel
      obtain ⟨o, ho, hoe, hoo⟩ := ih e.location.indices.length (hd ▸ hlt) hout rfl
      exact ⟨o, ho, Location.isStrictAncestorOf_trans hoe hel, hoo⟩

/-- At most one outermost edit lies above a location. -/
theorem outermost_above_unique {q : EditQueue} {a b : Edit} {l : Location} (ha : a ∈ q.edits)
    (hb : b ∈ q.edits) (hal : a.location.isStrictAncestorOf l = true)
    (hbl : b.location.isStrictAncestorOf l = true) (hao : q.IsOutermost a.location)
    (hbo : q.IsOutermost b.location) : a = b := by
  have hcases := Location.isStrictAncestorOf_or_of_contains
    (Location.contains_of_isStrictAncestorOf hal) (Location.contains_of_isStrictAncestorOf hbl)
  rcases hcases with h | h | h
  · exact List.inj_on_of_nodup_map q.nodup_locations ha hb h
  · exact absurd (hbo a ha) (by simp [h])
  · exact absurd (hao b hb) (by simp [h])

end EditQueue

end TreeLint
