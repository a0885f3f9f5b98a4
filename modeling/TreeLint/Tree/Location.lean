namespace TreeLint

/-!
# Locations of nodes

A node is addressed by the child indices that lead to it from the root.

* `Location` holds the indices, each a 32-bit word; `Location.child` takes the index of a child
  modulo `2 ^ 32`.
* Locations are ordered lexicographically. An ancestor comes before its descendants and siblings
  come in document order.
* `Location.contains` and `Location.isStrictAncestorOf` compare locations along the tree;
  `Location.ancestors` lists the strict ancestors, nearest first.
-/

/-- The position of a node: child indices from the root. -/
structure Location where
  indices : List UInt32
  deriving Repr

namespace Location

/-- The location of the root. -/
def root : Location := ⟨[]⟩

/-- The number of steps from the root. -/
def depth (l : Location) : Nat := l.indices.length

def isRoot (l : Location) : Bool := l.indices.isEmpty

/-- The location of the child with the given index, which is taken modulo `2 ^ 32`. -/
def child (l : Location) (index : Nat) : Location := ⟨l.indices ++ [index.toUInt32]⟩

/-- The location one step up; the root has none. -/
def parent? (l : Location) : Option Location :=
  if l.indices.isEmpty then none else some ⟨l.indices.dropLast⟩

/-- `other` is `l` or lies below it. -/
def contains (l other : Location) : Bool := l.indices.isPrefixOf other.indices

/-- `l` lies on the way from the root to `other` and is not `other`. -/
def isStrictAncestorOf (l other : Location) : Bool :=
  l.indices.length < other.indices.length && l.contains other

/-- The strict ancestors of `l`, nearest first. -/
def ancestors (l : Location) : List Location :=
  (List.range l.indices.length).reverse.map fun n => ⟨l.indices.take n⟩

/-! ### Order -/

/-- Lexicographic order of the indices. -/
instance : LT Location := ⟨fun a b => a.indices < b.indices⟩

/-- Locations are ordered as their indices are, by the first difference. -/
theorem lt_iff {a b : Location} : a < b ↔ a.indices < b.indices := Iff.rfl

theorem lt_irrefl (a : Location) : ¬ a < a := List.lt_irrefl a.indices

theorem lt_trans {a b c : Location} (h : a < b) (h' : b < c) : a < c :=
  List.lt_trans (show a.indices < b.indices from h) h'

/-- Lexicographic comparison of indices, in one go. -/
def compareIndices : List UInt32 → List UInt32 → Ordering
  | [], [] => .eq
  | [], _ :: _ => .lt
  | _ :: _, [] => .gt
  | i :: is, j :: js => if i < j then .lt else if j < i then .gt else compareIndices is js

/-- Lexicographic comparison. -/
def compare (a b : Location) : Ordering := compareIndices a.indices b.indices

/-- The comparison says that a list comes first exactly if it is smaller. -/
theorem compareIndices_eq_lt_iff {is js : List UInt32} :
    compareIndices is js = .lt ↔ is < js := by
  fun_induction compareIndices is js with
  | case1 => simp
  | case2 => simp
  | case3 => simp
  | case4 i is j js h => simp [List.cons_lt_cons_iff, h]
  | case5 i is j js h h' =>
    have hne : i ≠ j := fun e => UInt32.lt_irrefl j (e ▸ h')
    simp [List.cons_lt_cons_iff, h, hne]
  | case6 i is j js h h' ih =>
    have : i = j := UInt32.le_antisymm (UInt32.not_lt.mp h') (UInt32.not_lt.mp h)
    simp [ih, this]

/-- It says so of the second list in the same case. -/
theorem compareIndices_eq_gt_iff {is js : List UInt32} :
    compareIndices is js = .gt ↔ js < is := by
  fun_induction compareIndices is js with
  | case1 => simp
  | case2 => simp
  | case3 => simp
  | case4 i is j js h =>
    have hne : j ≠ i := fun e => UInt32.lt_irrefl j (e ▸ h)
    simp [List.cons_lt_cons_iff, UInt32.not_lt.mpr (UInt32.le_of_lt h), hne]
  | case5 i is j js h h' => simp [List.cons_lt_cons_iff, h']
  | case6 i is j js h h' ih =>
    have : i = j := UInt32.le_antisymm (UInt32.not_lt.mp h') (UInt32.not_lt.mp h)
    simp [ih, this]

/-- It takes only equal lists for equal. -/
theorem compareIndices_eq_eq_iff {is js : List UInt32} :
    compareIndices is js = .eq ↔ is = js := by
  fun_induction compareIndices is js with
  | case1 => simp
  | case2 => simp
  | case3 => simp
  | case4 i is j js h =>
    have hne : i ≠ j := fun e => UInt32.lt_irrefl j (e ▸ h)
    simp [hne]
  | case5 i is j js h h' =>
    have hne : i ≠ j := fun e => UInt32.lt_irrefl j (e ▸ h')
    simp [hne]
  | case6 i is j js h h' ih =>
    have : i = j := UInt32.le_antisymm (UInt32.not_lt.mp h') (UInt32.not_lt.mp h)
    simp [ih, this]

/-- The comparison of locations agrees with their order. -/
theorem compare_eq_lt_iff {a b : Location} : a.compare b = .lt ↔ a < b := compareIndices_eq_lt_iff

theorem compare_eq_gt_iff {a b : Location} : a.compare b = .gt ↔ b < a := compareIndices_eq_gt_iff

/-- Only equal locations compare as equal. -/
theorem compare_eq_eq_iff {a b : Location} : a.compare b = .eq ↔ a = b := by
  cases a; cases b
  simp [compare, compareIndices_eq_eq_iff]

instance (a b : Location) : Decidable (a < b) := decidable_of_iff _ compare_eq_lt_iff

instance : DecidableEq Location := fun _ _ => decidable_of_iff _ compare_eq_eq_iff

/-- Two locations of which neither is smaller are the same. -/
theorem eq_of_not_lt {a b : Location} (h : ¬ a < b) (h' : ¬ b < a) : a = b := by
  cases a; cases b
  simp only [lt_iff] at h h'
  exact congrArg mk (List.le_antisymm (List.not_lt.mp h') (List.not_lt.mp h))

/-! ### Written form -/

/-- The written form: `/` for the root, else a slash before every index. -/
def display (l : Location) : String :=
  if l.indices.isEmpty then "/"
  else String.join (l.indices.map fun i => "/" ++ toString i.toNat)

end Location

end TreeLint
