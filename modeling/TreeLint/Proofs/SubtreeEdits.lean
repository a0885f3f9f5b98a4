import Mathlib
import TreeLint.Proofs.EditQueue

namespace TreeLint

/-!
# The edits of a subtree

A queue is asked whether it has an edit in the subtree of a location, and it answers from a single
edit. This is right because of where a subtree stands in the lexicographic order.

* `Location.IsPast l m`: the location `m` comes after all of the subtree of `l`. A location that
  neither comes before a subtree nor is past it lies in it (`contains_iff_not_isPast`).
* `EditQueue.edits_eq_blocks`: the edits of a queue are those before a subtree, those in it and
  those past it, in this order.
* `EditQueue.hasWithin_subtree`: one look at the order tells whether the middle block is empty.
-/

namespace Location

/-- `m` comes after `l` and all that lies below it. -/
def IsPast (l m : Location) : Prop := ∀ k, l.contains k = true → k < m

/-- What comes after `l` is past its subtree if it does not lie in it. -/
theorem isPast_iff {l m : Location} : l.IsPast m ↔ l < m ∧ l.contains m = false := by
  constructor
  · intro h
    refine ⟨h l (contains_self l), ?_⟩
    rw [Bool.eq_false_iff]
    exact fun hc => lt_irrefl m (h m hc)
  · rintro ⟨hlt, hc⟩ k hk
    -- Otherwise `m` would stand between `l` and `k`.
    by_contra hkm
    have hml : ¬ m < l := fun h => lt_irrefl l (lt_trans hlt h)
    rw [contains_of_between hml hkm hk] at hc
    exact Bool.noConfusion hc

instance (l m : Location) : Decidable (l.IsPast m) := decidable_of_iff _ isPast_iff.symm

/-- What is past a subtree does not come before its top. -/
theorem not_lt_of_isPast {l m : Location} (h : l.IsPast m) : ¬ m < l :=
  fun hlt => lt_irrefl l (lt_trans (isPast_iff.mp h).1 hlt)

/-- What comes after something past a subtree is past it too. -/
theorem IsPast.of_lt {l m k : Location} (h : l.IsPast m) (hlt : m < k) : l.IsPast k :=
  fun j hj => lt_trans (h j hj) hlt

/-- A subtree holds what does not come before it and is not past it. -/
theorem contains_iff_not_isPast {l m : Location} :
    l.contains m = true ↔ ¬ l.IsPast m ∧ ¬ m < l := by
  constructor
  · intro hc
    exact ⟨fun hpast => lt_irrefl m (hpast m hc), not_lt_of_contains hc⟩
  · rintro ⟨hpast, hlt⟩
    by_contra hc
    have hc : l.contains m = false := Bool.eq_false_iff.mpr hc
    have hne : l ≠ m := (ne_of_contains_eq_false hc).symm
    exact hpast (isPast_iff.mpr ⟨lt_of_not_lt_of_ne hlt hne, hc⟩)

end Location

/-! ### Blocks -/

/-- A list in which nothing with the property `p` comes after something without it is cut in two by
    `p`. -/
theorem eq_filter_append_filter {α : Type} {p : α → Bool} {xs : List α}
    (h : xs.Pairwise fun x y => p y = true → p x = true) :
    xs = xs.filter p ++ xs.filter (!p ·) := by
  induction xs with
  | nil => rfl
  | cons x xs ih =>
    obtain ⟨hx, hxs⟩ := List.pairwise_cons.mp h
    cases hp : p x with
    | true =>
      rw [List.filter_cons_of_pos hp, List.filter_cons_of_neg (by simp [hp]), List.cons_append,
        ← ih hxs]
    | false =>
      have hall : ∀ y ∈ x :: xs, p y = false := by
        rw [List.forall_mem_cons]
        refine ⟨hp, fun y hy => ?_⟩
        rw [Bool.eq_false_iff]
        intro hpy
        rw [hx y hy hpy] at hp
        exact Bool.noConfusion hp
      rw [List.filter_eq_nil_iff.mpr fun y hy => by simp [hall y hy],
        List.filter_eq_self.mpr fun y hy => by simp [hall y hy], List.nil_append]

namespace EditQueue

/-- **The edits of a subtree stand together**, between those before it and those past it. -/
theorem edits_eq_blocks (q : EditQueue) (l : Location) :
    q.edits = q.edits.filter (·.location < l) ++ q.edits.filter (l.contains ·.location) ++
      q.edits.filter (l.IsPast ·.location) := by
  -- First the edits before the subtree are cut off, then those past it.
  have hcut : q.edits = q.edits.filter (·.location < l) ++
      q.edits.filter (fun e => !decide (e.location < l)) :=
    eq_filter_append_filter (q.sorted.imp fun hab hb =>
      decide_eq_true (Location.lt_trans hab (of_decide_eq_true hb)))
  have hrest := eq_filter_append_filter (p := fun e : Edit => !decide (l.IsPast e.location))
    ((q.sorted.filter fun e => !decide (e.location < l)).imp fun hab hb => by
      simp only [Bool.not_eq_true', decide_eq_false_iff_not] at hb ⊢
      exact fun ha => hb (ha.of_lt hab))
  have hwithin : ∀ e : Edit, (!decide (l.IsPast e.location) && !decide (e.location < l))
      = l.contains e.location := by
    intro e
    rw [Bool.eq_iff_iff, Location.contains_iff_not_isPast]
    simp
  have hpast : ∀ e : Edit, (!!decide (l.IsPast e.location) && !decide (e.location < l))
      = decide (l.IsPast e.location) := by
    intro e
    rw [Bool.eq_iff_iff]
    simpa using Location.not_lt_of_isPast
  simp only [List.filter_filter, hwithin, hpast] at hrest
  rw [List.append_assoc, ← hrest]
  exact hcut

/-- **One look at the order tells about a subtree.** A queue has edits within `l` exactly if some
    queued location is `l` or has `l` as a prefix. This is so exactly if the first edit whose
    location is not smaller than `l` is such an edit, because all edits of the subtree stand
    together: smaller locations come before them, and locations that are greater than everything
    below `l` come after them. -/
theorem hasWithin_subtree (q : EditQueue) (l : Location) :
    (q.hasWithin l = true ↔
      ∃ m, (q.get? m).isSome = true ∧ (m = l ∨ l.indices <+: m.indices)) ∧
    (q.hasWithin l = true ↔ ∃ e, q.IsFirstFrom l e ∧ l.indices <+: e.location.indices) ∧
    q.edits = q.edits.filter (·.location < l) ++ q.edits.filter (l.contains ·.location) ++
      q.edits.filter (l.IsPast ·.location) := by
  refine ⟨?_, ?_, q.edits_eq_blocks l⟩
  · rw [hasWithin_iff]
    constructor
    · rintro ⟨e, he, hc⟩
      refine ⟨e.location, ?_, .inr (Location.contains_iff_isPrefix.mp hc)⟩
      rw [mem_edits_iff.mp he]
      rfl
    · rintro ⟨m, hm, hl⟩
      obtain ⟨e, he⟩ := Option.isSome_iff_exists.mp hm
      obtain ⟨hmem, rfl⟩ := get?_eq_some_iff.mp he
      refine ⟨e, hmem, ?_⟩
      rcases hl with rfl | hl
      · exact Location.contains_self _
      · exact Location.contains_iff_isPrefix.mpr hl
  · rw [hasWithin_iff_isFirstFrom]
    simp only [Location.contains_iff_isPrefix]

end EditQueue

end TreeLint
