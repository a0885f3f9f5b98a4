import Mathlib
import TreeLint.Tree.Location

namespace TreeLint.Location

/-!
# Locations along the tree and in order

Two orders on locations meet in every result about edits: the order along the tree, in which an
ancestor lies above its descendants, and the lexicographic order in which edits are kept.

* `contains_iff_isPrefix`, `isStrictAncestorOf_iff`, `mem_ancestors` read the tests along the tree
  as statements about prefixes of index lists.
* `isStrictAncestorOf_or_of_contains`: two locations above a third one lie one above the other.
* `lt_of_isStrictAncestorOf`: an ancestor comes first in the lexicographic order, and
  `contains_of_between` says that what lies below a location stands together in that order.
* `child_contains_inj`: nothing lies below two children, as long as their indices fit a word, and
  `lt_of_child_contains` says that the children come in the order of their indices.
-/

/-! ### Containment -/

/-- A location contains those that begin with its indices. -/
theorem contains_iff_isPrefix {l m : Location} : l.contains m = true ↔ l.indices <+: m.indices :=
  List.isPrefixOf_iff_prefix

@[simp] theorem contains_self (l : Location) : l.contains l = true :=
  contains_iff_isPrefix.mpr List.prefix_rfl

@[simp] theorem root_contains (l : Location) : root.contains l = true :=
  contains_iff_isPrefix.mpr List.nil_prefix

/-- What is in a subtree of a subtree is in the subtree. -/
theorem contains_trans {l m k : Location} (h : l.contains m = true) (h' : m.contains k = true) :
    l.contains k = true :=
  contains_iff_isPrefix.mpr ((contains_iff_isPrefix.mp h).trans (contains_iff_isPrefix.mp h'))

/-- A location contains itself, so one that it does not contain is another one. -/
theorem ne_of_contains_eq_false {l m : Location} (h : l.contains m = false) : m ≠ l := by
  rintro rfl
  rw [contains_self] at h
  exact Bool.noConfusion h

/-- Strictly above means above and not the same. -/
theorem isStrictAncestorOf_iff {l m : Location} :
    l.isStrictAncestorOf m = true ↔ l.contains m = true ∧ l ≠ m := by
  unfold isStrictAncestorOf
  rw [Bool.and_eq_true, decide_eq_true_eq]
  constructor
  · rintro ⟨hlen, hc⟩
    refine ⟨hc, ?_⟩
    rintro rfl
    exact absurd hlen (Nat.lt_irrefl _)
  · rintro ⟨hc, hne⟩
    have hpre := contains_iff_isPrefix.mp hc
    refine ⟨lt_of_le_of_ne hpre.length_le ?_, hc⟩
    intro hlen
    have heq : l.indices = m.indices := hpre.eq_of_length hlen
    cases l; cases m
    exact hne (congrArg mk heq)

/-- A strict ancestor is an ancestor. -/
theorem contains_of_isStrictAncestorOf {l m : Location} (h : l.isStrictAncestorOf m = true) :
    l.contains m = true :=
  (isStrictAncestorOf_iff.mp h).1

/-- Strict ancestors have fewer indices. -/
theorem length_lt_of_isStrictAncestorOf {l m : Location} (h : l.isStrictAncestorOf m = true) :
    l.indices.length < m.indices.length := by
  unfold isStrictAncestorOf at h
  rw [Bool.and_eq_true, decide_eq_true_eq] at h
  exact h.1

/-- An ancestor with fewer indices is a strict one. -/
theorem isStrictAncestorOf_of_length {l m : Location} (hc : l.contains m = true)
    (hlen : l.indices.length < m.indices.length) : l.isStrictAncestorOf m = true := by
  unfold isStrictAncestorOf
  rw [Bool.and_eq_true, decide_eq_true_eq]
  exact ⟨hlen, hc⟩

@[simp] theorem not_isStrictAncestorOf_self (l : Location) : l.isStrictAncestorOf l = false := by
  by_contra h
  exact (isStrictAncestorOf_iff.mp (Bool.not_eq_false _ ▸ h)).2 rfl

/-- There is nothing above the root. -/
@[simp] theorem not_isStrictAncestorOf_root (l : Location) :
    l.isStrictAncestorOf root = false := by
  by_contra h
  have hlen := length_lt_of_isStrictAncestorOf (Bool.not_eq_false _ ▸ h)
  exact absurd hlen (Nat.not_lt_zero _)

/-- What is strictly above the top of a subtree is strictly above all of it. -/
theorem isStrictAncestorOf_of_contains {l m k : Location} (h : l.isStrictAncestorOf m = true)
    (h' : m.contains k = true) : l.isStrictAncestorOf k = true := by
  have hlen := length_lt_of_isStrictAncestorOf h
  have hle := (contains_iff_isPrefix.mp h').length_le
  exact isStrictAncestorOf_of_length (contains_trans (contains_of_isStrictAncestorOf h) h')
    (lt_of_lt_of_le hlen hle)

/-- Strict ancestors of strict ancestors are strict ancestors. -/
theorem isStrictAncestorOf_trans {l m k : Location} (h : l.isStrictAncestorOf m = true)
    (h' : m.isStrictAncestorOf k = true) : l.isStrictAncestorOf k = true :=
  isStrictAncestorOf_of_contains h (contains_of_isStrictAncestorOf h')

/-- Of two locations above a third one, one lies above the other unless they are the same. -/
theorem isStrictAncestorOf_or_of_contains {l m k : Location} (hl : l.contains k = true)
    (hm : m.contains k = true) :
    l = m ∨ l.isStrictAncestorOf m = true ∨ m.isStrictAncestorOf l = true := by
  by_cases heq : l = m
  · exact .inl heq
  · rcases List.prefix_or_prefix_of_prefix (contains_iff_isPrefix.mp hl)
      (contains_iff_isPrefix.mp hm) with h | h
    · exact .inr (.inl (isStrictAncestorOf_iff.mpr ⟨contains_iff_isPrefix.mpr h, heq⟩))
    · exact .inr (.inr (isStrictAncestorOf_iff.mpr ⟨contains_iff_isPrefix.mpr h, Ne.symm heq⟩))

/-- `ancestors` lists exactly the strict ancestors. -/
theorem mem_ancestors {a l : Location} : a ∈ l.ancestors ↔ a.isStrictAncestorOf l = true := by
  unfold ancestors
  rw [List.mem_map]
  constructor
  · rintro ⟨n, hn, rfl⟩
    rw [List.mem_reverse, List.mem_range] at hn
    refine isStrictAncestorOf_of_length (contains_iff_isPrefix.mpr (List.take_prefix n _)) ?_
    simpa using hn
  · intro h
    refine ⟨a.indices.length, ?_, ?_⟩
    · rw [List.mem_reverse, List.mem_range]
      exact length_lt_of_isStrictAncestorOf h
    · have hpre := contains_iff_isPrefix.mp (contains_of_isStrictAncestorOf h)
      cases a
      exact congrArg mk (List.prefix_iff_eq_take.mp hpre).symm

/-! ### The lexicographic order -/

/-- No location of a subtree comes before its top. -/
theorem not_lt_of_contains {l m : Location} (h : l.contains m = true) : ¬ m < l := by
  obtain ⟨t, ht⟩ := contains_iff_isPrefix.mp h
  have hle : l.indices ≤ m.indices := ht ▸ List.le_append_left
  exact List.not_lt.mpr hle

/-- Of two different locations one comes first. -/
theorem lt_of_not_lt_of_ne {l m : Location} (h : ¬ m < l) (hne : l ≠ m) : l < m := by
  by_contra h'
  exact hne (eq_of_not_lt h' h)

/-- An ancestor comes before its descendants. -/
theorem lt_of_isStrictAncestorOf {l m : Location} (h : l.isStrictAncestorOf m = true) : l < m := by
  obtain ⟨hc, hne⟩ := isStrictAncestorOf_iff.mp h
  exact lt_of_not_lt_of_ne (not_lt_of_contains hc) hne

/-- The index lists that begin with `is` are an interval of the lexicographic order. -/
theorem prefix_of_between {is js ks : List UInt32} (h : ¬ js < is) (h' : ¬ ks < js)
    (hp : is <+: ks) : is <+: js := by
  induction is generalizing js ks with
  | nil => exact List.nil_prefix
  | cons i is ih =>
    cases js with
    | nil => exact absurd (List.nil_lt_cons i is) h
    | cons j js =>
      cases ks with
      | nil => exact absurd (List.prefix_nil.mp hp) (List.cons_ne_nil i is)
      | cons k ks =>
        rw [List.cons_prefix_cons] at hp
        obtain ⟨rfl, hp⟩ := hp
        rw [List.cons_lt_cons_iff, not_or] at h h'
        -- Neither comparison is decided by the first index, so that is the same in all three.
        have hij : i = j := UInt32.le_antisymm (UInt32.not_lt.mp h.1) (UInt32.not_lt.mp h'.1)
        subst hij
        rw [List.cons_prefix_cons]
        refine ⟨rfl, ih (fun hlt => h.2 ⟨rfl, hlt⟩) (fun hlt => h'.2 ⟨rfl, hlt⟩) hp⟩

/-- What lies between a location and something below it lies below it as well. -/
theorem contains_of_between {l m k : Location} (h : ¬ m < l) (h' : ¬ k < m)
    (hc : l.contains k = true) : l.contains m = true :=
  contains_iff_isPrefix.mpr (prefix_of_between h h' (contains_iff_isPrefix.mp hc))

/-! ### Children -/

@[simp] theorem indices_child (l : Location) (i : Nat) :
    (l.child i).indices = l.indices ++ [i.toUInt32] := rfl

/-- A child is in the subtree. -/
theorem contains_child (l : Location) (i : Nat) : l.contains (l.child i) = true :=
  contains_iff_isPrefix.mpr (List.prefix_append _ _)

/-- A parent is strictly above its child. -/
theorem isStrictAncestorOf_child (l : Location) (i : Nat) :
    l.isStrictAncestorOf (l.child i) = true :=
  isStrictAncestorOf_of_length (contains_child l i) (by simp)

/-- The subtree of a child is part of the subtree. -/
theorem contains_of_child_contains {l m : Location} {i : Nat}
    (h : (l.child i).contains m = true) : l.contains m = true :=
  contains_trans (contains_child l i) h

/-- A parent is strictly above the whole subtree of a child. -/
theorem isStrictAncestorOf_of_child_contains {l m : Location} {i : Nat}
    (h : (l.child i).contains m = true) : l.isStrictAncestorOf m = true :=
  isStrictAncestorOf_of_contains (isStrictAncestorOf_child l i) h

/-- A small number is kept when it is written as a word. -/
theorem toNat_toUInt32 {i : Nat} (h : i < 2 ^ 32) : i.toUInt32.toNat = i := by
  rw [Nat.toUInt32_eq, UInt32.toNat_ofNat', Nat.mod_eq_of_lt h]

/-- What lies strictly below a location lies below one of its children. -/
theorem exists_child_contains {l m : Location} (h : l.isStrictAncestorOf m = true) :
    ∃ i < 2 ^ 32, (l.child i).contains m = true := by
  obtain ⟨t, ht⟩ := contains_iff_isPrefix.mp (contains_of_isStrictAncestorOf h)
  have hlen := length_lt_of_isStrictAncestorOf h
  cases t with
  | nil =>
    rw [List.append_nil] at ht
    rw [ht] at hlen
    exact absurd hlen (Nat.lt_irrefl _)
  | cons i rest =>
    refine ⟨i.toNat, i.toNat_lt, contains_iff_isPrefix.mpr ⟨rest, ?_⟩⟩
    rw [indices_child, Nat.toUInt32_eq, UInt32.ofNat_toNat, List.append_assoc, ← ht]
    rfl

/-- Nothing lies below two different children, if the indices fit a word. -/
theorem child_contains_inj {l m : Location} {i j : Nat} (hi : i < 2 ^ 32) (hj : j < 2 ^ 32)
    (h : (l.child i).contains m = true) (h' : (l.child j).contains m = true) : i = j := by
  have hpre := List.prefix_of_prefix_length_le (contains_iff_isPrefix.mp h)
    (contains_iff_isPrefix.mp h') (by simp)
  have heq := hpre.eq_of_length (by simp)
  simp only [indices_child, List.append_cancel_left_eq, List.cons.injEq, and_true] at heq
  rw [← toNat_toUInt32 hi, ← toNat_toUInt32 hj, heq]

/-- The subtrees of two children have nothing in common, if their numbers fit a word. -/
theorem child_contains_eq_false {l m : Location} {i j : Nat} (hi : i < 2 ^ 32) (hj : j < 2 ^ 32)
    (hij : i ≠ j) (h : (l.child i).contains m = true) : (l.child j).contains m = false := by
  rw [Bool.eq_false_iff]
  intro h'
  exact hij (child_contains_inj hi hj h h')

/-- A strict ancestor of something below a child that lies strictly below the parent is at or below
    the child. -/
theorem child_contains_of_isStrictAncestorOf {l a m : Location} {i : Nat}
    (hm : (l.child i).contains m = true) (ha : a.isStrictAncestorOf m = true)
    (hl : l.isStrictAncestorOf a = true) : (l.child i).contains a = true := by
  refine contains_iff_isPrefix.mpr (List.prefix_of_prefix_length_le (contains_iff_isPrefix.mp hm)
    (contains_iff_isPrefix.mp (contains_of_isStrictAncestorOf ha)) ?_)
  have hlen := length_lt_of_isStrictAncestorOf hl
  rw [indices_child, List.length_append, List.length_singleton]
  omega

/-- What lies below a child comes before what lies below a later child. -/
theorem lt_of_child_contains {l m k : Location} {i j : Nat} (hij : i < j) (hj : j < 2 ^ 32)
    (hm : (l.child i).contains m = true) (hk : (l.child j).contains k = true) : m < k := by
  obtain ⟨t, ht⟩ := contains_iff_isPrefix.mp hm
  obtain ⟨u, hu⟩ := contains_iff_isPrefix.mp hk
  have hword : i.toUInt32 < j.toUInt32 := by
    rw [UInt32.lt_iff_toNat_lt, toNat_toUInt32 (hij.trans hj), toNat_toUInt32 hj]
    exact hij
  show m.indices < k.indices
  rw [← ht, ← hu, indices_child, indices_child, List.append_assoc, List.append_assoc]
  exact List.append_left_lt (List.cons_lt_cons_iff.mpr (.inl hword))

end TreeLint.Location
