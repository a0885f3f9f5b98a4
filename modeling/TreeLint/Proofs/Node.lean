import Mathlib
import TreeLint.Proofs.Location
import TreeLint.Tree.Node

namespace TreeLint.Node

/-!
# Parts of trees and structural equality

* `parts` lists the nodes of a tree in document order; what is said of every node of a tree is said
  of its parts. `Addressable` trees are those in which a word can count the children of each node,
  `height` is the depth of the deepest node.
* `bare` takes the spans out of a tree. `same_iff_bare` says that structural equality is equality of
  bare trees, so it is an equivalence.
* `holds_iff`: the search for a node looks at the parts.
* `get?_child`: addressing composes, and `mem_parts_of_get?` says that only parts are addressed.
-/

/-- Induction over a tree: a property of all children passes to the node. -/
@[elab_as_elim, induction_eliminator]
theorem induct {P : Node → Prop}
    (node : ∀ payload span cs, (∀ c ∈ cs, P c) → P ⟨payload, span, cs⟩) (n : Node) : P n :=
  match n with
  | ⟨payload, span, cs⟩ => node payload span cs fun c _ => induct node c

@[simp] theorem withChildren_children (n : Node) : n.withChildren n.children = n := by
  obtain ⟨payload, span, cs⟩ := n
  rfl

/-! ### Parts -/

mutual

/-- The node and the nodes below it, in document order. -/
def parts : Node → List Node
  | ⟨payload, span, cs⟩ => ⟨payload, span, cs⟩ :: partsAll cs

/-- The nodes of several trees. -/
def partsAll : List Node → List Node
  | [] => []
  | c :: cs => parts c ++ partsAll cs

end

/-- The parts of several trees are those of each of them. -/
theorem mem_partsAll {m : Node} {cs : List Node} : m ∈ partsAll cs ↔ ∃ c ∈ cs, m ∈ c.parts := by
  induction cs with
  | nil => simp [partsAll]
  | cons c cs ih => simp [partsAll, ih]

/-- A part of a node is the node itself or a part of a child. -/
theorem mem_parts {m n : Node} : m ∈ n.parts ↔ m = n ∨ ∃ c ∈ n.children, m ∈ c.parts := by
  obtain ⟨payload, span, cs⟩ := n
  rw [parts, List.mem_cons, mem_partsAll]

theorem mem_parts_self (n : Node) : n ∈ n.parts := mem_parts.mpr (.inl rfl)

/-- The parts of a child are parts of the node. -/
theorem mem_parts_of_child {m n c : Node} (hc : c ∈ n.children) (h : m ∈ c.parts) : m ∈ n.parts :=
  mem_parts.mpr (.inr ⟨c, hc, h⟩)

/-- Parts of parts are parts. -/
theorem mem_parts_trans {k m n : Node} (h : k ∈ m.parts) (h' : m ∈ n.parts) : k ∈ n.parts := by
  induction n with
  | node payload span cs ih =>
    rcases mem_parts.mp h' with rfl | ⟨c, hc, hm⟩
    · exact h
    · exact mem_parts_of_child hc (ih c hc hm)

/-- No node has more children than there are words to count them with. -/
def Addressable (n : Node) : Prop := ∀ m ∈ n.parts, m.children.length ≤ 2 ^ 32

/-- A word can count the children of an addressable tree. -/
theorem Addressable.children_length {n : Node} (h : n.Addressable) :
    n.children.length ≤ 2 ^ 32 :=
  h n (mem_parts_self n)

/-- Parts of an addressable tree are addressable. -/
theorem Addressable.of_mem {m n : Node} (h : n.Addressable) (hm : m ∈ n.parts) : m.Addressable :=
  fun k hk => h k (mem_parts_trans hk hm)

mutual

/-- The number of steps from the node to the deepest node below it. -/
def height : Node → Nat
  | ⟨_, _, cs⟩ => heightAll cs

/-- The number of steps to the deepest node of several trees from a node above them. -/
def heightAll : List Node → Nat
  | [] => 0
  | c :: cs => max (height c + 1) (heightAll cs)

end

/-- A child is lower than its parent. -/
theorem height_lt_heightAll {c : Node} {cs : List Node} (h : c ∈ cs) : c.height < heightAll cs := by
  induction cs with
  | nil => exact absurd h List.not_mem_nil
  | cons d ds ih =>
    rw [heightAll]
    rcases List.mem_cons.mp h with rfl | h
    · omega
    · have := ih h
      omega

/-- A node is as high as its children allow. -/
theorem heightAll_le {cs : List Node} {k : Nat} (h : ∀ c ∈ cs, c.height < k) :
    heightAll cs ≤ k := by
  induction cs with
  | nil => exact Nat.zero_le k
  | cons c cs ih =>
    rw [heightAll]
    have hc := h c List.mem_cons_self
    have hcs := ih fun d hd => h d (List.mem_cons_of_mem c hd)
    omega

/-! ### Structural equality -/

mutual

/-- The tree with all spans taken out. -/
def bare : Node → Node
  | ⟨payload, _, cs⟩ => ⟨payload, Span.zero, bareAll cs⟩

/-- Several trees with all spans taken out. -/
def bareAll : List Node → List Node
  | [] => []
  | c :: cs => bare c :: bareAll cs

end

/-- Several trees are erased one by one. -/
theorem bareAll_eq (cs : List Node) : bareAll cs = cs.map bare := by
  induction cs with
  | nil => rfl
  | cons c cs ih => rw [bareAll, ih, List.map_cons]

mutual

/-- Two trees are structurally equal when they differ in their spans only. -/
theorem same_iff_bare : ∀ a b : Node, a.same b = true ↔ a.bare = b.bare
  | ⟨p, _, cs⟩, ⟨q, _, ds⟩ => by
    simp only [same, bare, Bool.and_eq_true, decide_eq_true_eq, mk.injEq, true_and]
    rw [sameAll_iff_bareAll cs ds]

/-- Two lists of trees are the same exactly if they are equal without spans. -/
theorem sameAll_iff_bareAll : ∀ cs ds : List Node, sameAll cs ds = true ↔ bareAll cs = bareAll ds
  | [], [] => by simp [sameAll, bareAll]
  | [], _ :: _ => by simp [sameAll, bareAll]
  | _ :: _, [] => by simp [sameAll, bareAll]
  | c :: cs, d :: ds => by
    simp only [sameAll, bareAll, Bool.and_eq_true, List.cons.injEq]
    rw [same_iff_bare c d, sameAll_iff_bareAll cs ds]

end

/-- Equality of trees is equality up to spans. -/
theorem beq_iff_bare {a b : Node} : (a == b) = true ↔ a.bare = b.bare := same_iff_bare a b

@[simp] theorem beq_self (n : Node) : (n == n) = true := beq_iff_bare.mpr rfl

/-- The search for a node finds it exactly if some part is structurally equal to it. -/
theorem holds_iff {n needle : Node} :
    n.holds needle = true ↔ ∃ m ∈ n.parts, (m == needle) = true := by
  induction n with
  | node payload span cs ih =>
    have hany : holdsAny cs needle = true ↔ ∃ c ∈ cs, c.holds needle = true := by
      clear ih
      induction cs with
      | nil => simp [holdsAny]
      | cons c cs ih => simp [holdsAny, ih]
    rw [holds, Bool.or_eq_true, hany]
    constructor
    · rintro (h | ⟨c, hc, h⟩)
      · exact ⟨_, mem_parts_self _, h⟩
      · obtain ⟨m, hm, h⟩ := (ih c hc).mp h
        exact ⟨m, mem_parts_of_child hc hm, h⟩
    · rintro ⟨m, hm, h⟩
      rcases mem_parts.mp hm with rfl | ⟨c, hc, hm⟩
      · exact .inl h
      · exact .inr ⟨c, hc, (ih c hc).mpr ⟨m, hm, h⟩⟩

/-! ### Addressing -/

/-- Going down a path and then another is going down both. -/
theorem descend?_append (n : Node) (is js : List UInt32) :
    n.descend? (is ++ js) = (n.descend? is).bind fun m => m.descend? js := by
  induction is generalizing n with
  | nil => rfl
  | cons i is ih =>
    rw [List.cons_append, descend?, descend?, Option.bind_assoc]
    exact congrArg _ (funext ih)

@[simp] theorem get?_root (n : Node) : n.get? Location.root = some n := rfl

/-- The node at a child of a location is that child of the node at the location. -/
theorem get?_child (n : Node) (l : Location) {i : Nat} (hi : i < 2 ^ 32) :
    n.get? (l.child i) = (n.get? l).bind fun m => m.children[i]? := by
  unfold get?
  rw [Location.indices_child, descend?_append]
  refine congrArg _ (funext fun m => ?_)
  show (m.children[i.toUInt32.toNat]?.bind fun c => some c) = m.children[i]?
  rw [Location.toNat_toUInt32 hi]
  exact Option.bind_fun_some _

/-- The child of a node is at the location of the child, if its number fits a word. -/
theorem get?_child_of_get? {n m c : Node} {l : Location} {i : Nat} (hi : i < 2 ^ 32)
    (h : n.get? l = some m) (hc : m.children[i]? = some c) : n.get? (l.child i) = some c := by
  rw [get?_child n l hi, h]
  exact hc

/-- Whatever is addressed below a location is addressed from the node there. -/
theorem get?_isSome_of_contains {n m : Node} {l k : Location} (hc : l.contains k = true)
    (h : n.get? k = some m) : (n.get? l).isSome = true := by
  obtain ⟨t, ht⟩ := Location.contains_iff_isPrefix.mp hc
  unfold get? at h ⊢
  rw [← ht, descend?_append] at h
  obtain ⟨m', hm', -⟩ := Option.bind_eq_some_iff.mp h
  rw [hm']
  rfl

/-- What is found on the way down is a part of the tree. -/
theorem mem_parts_of_descend? {n m : Node} {is : List UInt32} (h : n.descend? is = some m) :
    m ∈ n.parts := by
  induction is generalizing n with
  | nil =>
    rw [descend?, Option.some.injEq] at h
    exact h ▸ mem_parts_self n
  | cons i is ih =>
    rw [descend?, Option.bind_eq_some_iff] at h
    obtain ⟨c, hc, h⟩ := h
    exact mem_parts_of_child (List.mem_of_getElem? hc) (ih h)

/-- What a location addresses is a part of the tree. -/
theorem mem_parts_of_get? {n m : Node} {l : Location} (h : n.get? l = some m) : m ∈ n.parts :=
  mem_parts_of_descend? h

/-- The children of the node at a location stand at the children of the location. -/
theorem get?_child_of_mem_zipIdx {n m : Node} {l : Location} (hn : n.Addressable)
    (h : n.get? l = some m) {p : Node × Nat} (hp : p ∈ m.children.zipIdx) :
    p.2 < 2 ^ 32 ∧ n.get? (l.child p.2) = some p.1 := by
  have hget : m.children[p.2]? = some p.1 := List.mem_zipIdx_iff_getElem?.mp hp
  have hlt : p.2 < m.children.length := (List.getElem?_eq_some_iff.mp hget).1
  have hle := (hn.of_mem (mem_parts_of_get? h)).children_length
  have hword : p.2 < 2 ^ 32 := lt_of_lt_of_le hlt hle
  exact ⟨hword, get?_child_of_get? hword h hget⟩

/-- What is addressed strictly below a location is addressed below a child of the node there. -/
theorem exists_mem_zipIdx_of_isSome {n m : Node} {l k : Location} (h : n.get? l = some m)
    (hlk : l.isStrictAncestorOf k = true) (hk : (n.get? k).isSome = true) :
    ∃ p ∈ m.children.zipIdx, (l.child p.2).contains k = true := by
  obtain ⟨i, hi, hc⟩ := Location.exists_child_contains hlk
  obtain ⟨x, hx⟩ := Option.isSome_iff_exists.mp hk
  obtain ⟨c, hchild⟩ := Option.isSome_iff_exists.mp (get?_isSome_of_contains hc hx)
  rw [get?_child n l hi, h] at hchild
  exact ⟨(c, i), List.mem_zipIdx_iff_getElem?.mpr hchild, hc⟩

end TreeLint.Node
