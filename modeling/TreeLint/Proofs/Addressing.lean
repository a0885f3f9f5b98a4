import Mathlib
import TreeLint.Proofs.Places

namespace TreeLint

/-!
# Addressing through children

The location of a child keeps the number of the child modulo `2 ^ 32`, so locations tell children
apart as far as their numbers fit a word, and no further.

* `Location.child_eq_child_iff`: two children have one location if and only if their numbers agree
  modulo `2 ^ 32`.
* `Node.get?_child_mod`: the location of a child addresses the child with that number modulo
  `2 ^ 32`. A number leads to its own child in every tree if and only if it fits a word
  (`Node.forall_get?_child_iff`).
* `Node.nodup_foldl_child_iff`: a walk through a tree comes to different locations if and only if no
  node has more than `2 ^ 32` children.
-/

/-! ### Locations of children -/

namespace Location

/-- **Children share a location** if and only if their numbers agree modulo `2 ^ 32`. -/
theorem child_eq_child_iff {l : Location} {i j : Nat} :
    l.child i = l.child j ↔ i % 2 ^ 32 = j % 2 ^ 32 := by
  rw [child, child, mk.injEq, List.append_cancel_left_eq, List.singleton_inj, ← UInt32.toNat_inj,
    Nat.toUInt32_eq, Nat.toUInt32_eq, UInt32.toNat_ofNat', UInt32.toNat_ofNat']

/-- Going down from a location adds the numbers to it, each modulo `2 ^ 32`. -/
theorem indices_foldl_child (l : Location) (is : List Nat) :
    (is.foldl child l).indices = l.indices ++ (ofNumbers is).indices := by
  induction is generalizing l with
  | nil => exact (List.append_nil _).symm
  | cons i is ih =>
    rw [List.foldl_cons, ih, indices_child, List.append_assoc]
    rfl

theorem foldl_child_inj {l : Location} {is js : List Nat}
    (h : is.foldl child l = js.foldl child l) : ofNumbers is = ofNumbers js := by
  have hindices := congrArg indices h
  rw [indices_foldl_child, indices_foldl_child, List.append_cancel_left_eq] at hindices
  exact congrArg mk hindices

end Location

namespace Node

/-! ### Nodes of children -/

/-- **Addressing composes modulo `2 ^ 32`.** -/
theorem get?_child_mod (n : Node) (l : Location) (i : Nat) :
    n.get? (l.child i) = (n.get? l).bind fun m => m.children[i % 2 ^ 32]? := by
  have hchild : l.child i = l.child (i % 2 ^ 32) :=
    Location.child_eq_child_iff.mpr (Nat.mod_mod i _).symm
  rw [hchild, get?_child n l (Nat.mod_lt i (by norm_num))]

/-- A document with `k` empty texts. -/
def emptyTexts (k : Nat) : Node :=
  .ofPayload .document (List.replicate k (.ofPayload (.text "") []))

/-- A number that does not fit a word is taken for a smaller one, and some document has a child with
    the smaller number only. -/
theorem exists_get?_child_ne {i : Nat} (hi : 2 ^ 32 ≤ i) :
    ∃ n : Node, n.get? (Location.root.child i) ≠ (n.get? .root).bind fun m => m.children[i]? := by
  have hlt : i % 2 ^ 32 < 2 ^ 32 := Nat.mod_lt i (by norm_num)
  -- The last child is the one with the smaller number.
  refine ⟨emptyTexts (i % 2 ^ 32 + 1), ?_⟩
  rw [get?_child_mod, get?_root, Option.bind_some, Option.bind_some]
  show (List.replicate _ _)[_]? ≠ (List.replicate _ _)[_]?
  rw [List.getElem?_replicate, List.getElem?_replicate, if_pos (Nat.lt_succ_self _),
    if_neg (by omega)]
  exact Option.some_ne_none _

/-- **Numbers that fit a word are those that lead to their own children** in every tree. -/
theorem forall_get?_child_iff {i : Nat} :
    (∀ (n : Node) (l : Location),
      n.get? (l.child i) = (n.get? l).bind fun m => m.children[i]?) ↔ i < 2 ^ 32 := by
  constructor
  · intro h
    by_contra hi
    obtain ⟨n, hn⟩ := exists_get?_child_ne (Nat.not_lt.mp hi)
    exact hn (h n .root)
  · intro hi n l
    exact get?_child n l hi

/-! ### Walks -/

theorem nodup_places (n : Node) : n.places.Nodup := by
  have hnumbers : (n.places.map (·.1)).Nodup := n.pairwise_places.imp fun h => ne_of_lt h
  exact hnumbers.of_map

/-- **A walk through a tree comes to different locations** if and only if no node has more than
    `2 ^ 32` children. -/
theorem nodup_foldl_child_iff (n : Node) (l : Location) :
    (n.places.map fun p => p.1.foldl Location.child l).Nodup ↔ n.Addressable := by
  rw [List.nodup_map_iff_inj_on n.nodup_places]
  constructor
  · -- The first child of a node and the one with number `2 ^ 32` share their location.
    intro h m hm
    by_contra hlength
    obtain ⟨⟨is, m'⟩, hplace, rfl⟩ := List.mem_map.mp (n.map_places ▸ hm)
    have hfollow := mem_places.mp hplace
    -- All numbers up to `2 ^ 32` are taken.
    have hchild : ∀ i, i ≤ 2 ^ 32 → ∃ c, (is ++ [i], c) ∈ n.places := by
      intro i hi
      have hlt : i < m'.children.length := by
        have : ¬ m'.children.length ≤ 2 ^ 32 := hlength
        omega
      refine ⟨m'.children[i], mem_places.mpr ?_⟩
      rw [follow?, cursor.follow?_append]
      refine Option.bind_eq_some_iff.mpr ⟨m', hfollow, ?_⟩
      exact follow?_cons_eq_some.mpr ⟨_, List.getElem?_eq_getElem hlt, rfl⟩
    obtain ⟨c, hc⟩ := hchild 0 (Nat.zero_le _)
    obtain ⟨d, hd⟩ := hchild (2 ^ 32) (Nat.le_refl _)
    have hlocation : (is ++ [0]).foldl Location.child l
        = (is ++ [2 ^ 32]).foldl Location.child l := by
      rw [List.foldl_concat, List.foldl_concat]
      exact Location.child_eq_child_iff.mpr (by norm_num)
    have heq := h _ hc _ hd hlocation
    simp at heq
  · rintro hn ⟨is, m⟩ hm ⟨js, m'⟩ hm' hlocation
    have his := mem_places.mp hm
    have hjs := mem_places.mp hm'
    obtain rfl : is = js := eq_of_ofNumbers_eq hn his hjs (Location.foldl_child_inj hlocation)
    rw [Option.some.inj (his.symm.trans hjs)]

end Node

/-- **How far addressing composes.** The location of a child addresses the child with its number
    modulo `2 ^ 32`. So going down by a number leads to the child with that number, whatever the
    tree and the location, if and only if the number fits a word. Two children of a location have
    the same location if and only if their numbers agree modulo `2 ^ 32`. A walk through a tree, which
    goes down from a location to each place of the tree, comes to different locations if and only if
    no node has more than `2 ^ 32` children. -/
theorem addressing_composes (n : Node) (l : Location) (i j : Nat) :
    (n.get? (l.child i) = (n.get? l).bind fun m => m.children[i % 2 ^ 32]?) ∧
    ((∀ (tree : Node) (k : Location),
      tree.get? (k.child i) = (tree.get? k).bind fun m => m.children[i]?) ↔ i < 2 ^ 32) ∧
    (l.child i = l.child j ↔ i % 2 ^ 32 = j % 2 ^ 32) ∧
    ((n.places.map fun p => p.1.foldl Location.child l).Nodup ↔ n.Addressable) :=
  ⟨n.get?_child_mod l i, Node.forall_get?_child_iff, Location.child_eq_child_iff,
    n.nodup_foldl_child_iff l⟩

/-- A document with one text has no child with number `2 ^ 32`, but the location of such a child
    addresses the text: it is the location of the first child. -/
theorem addressing_wraps :
    ((Node.emptyTexts 1).get? .root).bind (fun m => m.children[2 ^ 32]?) = none ∧
      ((Node.emptyTexts 1).get? (Location.root.child (2 ^ 32))).isSome = true ∧
      Location.root.child (2 ^ 32) = Location.root.child 0 := by
  refine ⟨rfl, ?_, ?_⟩
  · rw [Node.get?_child_mod]
    rfl
  · exact Location.child_eq_child_iff.mpr rfl

end TreeLint
