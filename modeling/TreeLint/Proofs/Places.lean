import Mathlib
import TreeLint.Proofs.Node

namespace TreeLint

/-!
# Places in document order

A place of a tree is given by the numbers of the children that lead to it from the root. Unlike the
indices of a location, these numbers are not cut to a word.

* `Cursor` is what stands at a node and can go down to its children, and `Cursor.follow?` goes down
  by numbers. `Node.follow?` does so in a tree, and `Node.places` lists the places of a tree with
  their nodes.
* `Node.mem_places`: every place is listed. `Node.pairwise_places`: the list is in document order,
  which is the lexicographic order of the numbers, so no place is listed twice.
* `Location.ofNumbers` is the location of a place. `Node.get?_ofNumbers_mod`: it addresses the node
  that the numbers modulo `2 ^ 32` lead to. That is the node of the place if the numbers fit a word
  (`Node.get?_ofNumbers_of_lt`), as they do where a word can count the children of each node.
  Different places then have different locations (`Node.eq_of_ofNumbers_eq`).
* `enclosingPlaces` lists the places above a place, nearest first.
-/

/-! ### Going down -/

/-- A type whose values stand at a node and can go down to its children, given the number of the
    child and the child itself. -/
structure Cursor (α : Type) where
  node : α → Node
  child : α → Nat → Node → α
  node_child : ∀ a i c, node (child a i c) = c

namespace Cursor

variable {α : Type} (k : Cursor α)

/-- Where the numbers of children lead to. -/
def follow? : α → List Nat → Option α
  | a, [] => some a
  | a, i :: is => (k.node a).children[i]?.bind fun c => follow? (k.child a i c) is

/-- The first number leads to a child, the others lead on from there. -/
theorem follow?_cons {a : α} {i : Nat} {c : Node} (hc : (k.node a).children[i]? = some c)
    (is : List Nat) : k.follow? a (i :: is) = k.follow? (k.child a i c) is := by
  rw [follow?, hc]
  rfl

/-- The first number leads to a child, and the others go on from there. -/
theorem follow?_cons_eq_some {a b : α} {i : Nat} {is : List Nat} :
    k.follow? a (i :: is) = some b ↔
      ∃ c, (k.node a).children[i]? = some c ∧ k.follow? (k.child a i c) is = some b := by
  rw [follow?, Option.bind_eq_some_iff]

/-- Following numbers and then others is following both. -/
theorem follow?_append (a : α) (is js : List Nat) :
    k.follow? a (is ++ js) = (k.follow? a is).bind fun b => k.follow? b js := by
  induction is generalizing a with
  | nil => rfl
  | cons i is ih =>
    rw [List.cons_append, follow?, follow?, Option.bind_assoc]
    exact congrArg _ (funext fun c => ih (k.child a i c))

end Cursor

namespace Node

/-- A node by itself as a cursor. -/
def cursor : Cursor Node := ⟨id, fun _ _ c => c, fun _ _ _ => rfl⟩

/-- The node that the numbers of children lead to. -/
def follow? (n : Node) (is : List Nat) : Option Node := cursor.follow? n is

theorem follow?_nil (n : Node) : n.follow? [] = some n := rfl

/-- A node below is a node below a child. -/
theorem follow?_cons_eq_some {n m : Node} {i : Nat} {is : List Nat} :
    n.follow? (i :: is) = some m ↔ ∃ c, n.children[i]? = some c ∧ c.follow? is = some m :=
  cursor.follow?_cons_eq_some

end Node

/-- Whatever else a cursor keeps track of, numbers lead it to the node that they lead to in the
    tree. -/
theorem Cursor.node_of_follow? {α : Type} (k : Cursor α) {a b : α} {is : List Nat}
    (h : k.follow? a is = some b) : (k.node a).follow? is = some (k.node b) := by
  induction is generalizing a with
  | nil =>
    obtain rfl : a = b := Option.some.inj h
    rfl
  | cons i is ih =>
    obtain ⟨c, hc, h⟩ := k.follow?_cons_eq_some.mp h
    have hbelow := ih h
    rw [k.node_child] at hbelow
    exact Node.follow?_cons_eq_some.mpr ⟨c, hc, hbelow⟩

/-! ### Document order -/

namespace Node

mutual

/-- The places of a tree in document order, each with its node. -/
def places : Node → List (List Nat × Node)
  | ⟨payload, span, cs⟩ => ([], ⟨payload, span, cs⟩) :: placesAll 0 cs

/-- The places of the children from number `i` on. -/
def placesAll : Nat → List Node → List (List Nat × Node)
  | _, [] => []
  | i, c :: cs => (places c).map (fun p => (i :: p.1, p.2)) ++ placesAll (i + 1) cs

end

/-- The node itself comes first. -/
theorem places_eq (n : Node) : n.places = ([], n) :: placesAll 0 n.children := by
  obtain ⟨payload, span, cs⟩ := n
  rw [places]

/-- A place below the children is a place of one of them. -/
theorem mem_placesAll {i : Nat} {cs : List Node} {p : List Nat × Node} :
    p ∈ placesAll i cs ↔
      ∃ j c is, cs[j]? = some c ∧ p.1 = (i + j) :: is ∧ (is, p.2) ∈ c.places := by
  induction cs generalizing i with
  | nil => simp [placesAll]
  | cons c cs ih =>
    rw [placesAll, List.mem_append, ih, List.mem_map]
    constructor
    · rintro (⟨q, hq, rfl⟩ | ⟨j, d, is, hd, hp, hmem⟩)
      · exact ⟨0, c, q.1, rfl, rfl, hq⟩
      · exact ⟨j + 1, d, is, hd, by rw [hp]; congr 1; omega, hmem⟩
    · rintro ⟨j, d, is, hd, hp, hmem⟩
      cases j with
      | zero =>
        obtain rfl : c = d := Option.some.inj hd
        exact .inl ⟨(is, p.2), hmem, Prod.ext hp.symm rfl⟩
      | succ j => exact .inr ⟨j, d, is, hd, by rw [hp]; congr 1; omega, hmem⟩

/-- **Exactly the places of a tree are listed.** -/
theorem mem_places {n m : Node} {is : List Nat} : (is, m) ∈ n.places ↔ n.follow? is = some m := by
  induction n generalizing is m with
  | node payload span cs ih =>
    rw [places_eq, List.mem_cons, mem_placesAll]
    cases is with
    | nil => simp [follow?_nil, eq_comm]
    | cons i is =>
      simp only [Prod.mk.injEq, List.cons_ne_nil, false_and, false_or, List.cons.injEq,
        Nat.zero_add, follow?_cons_eq_some]
      constructor
      · rintro ⟨j, c, js, hc, ⟨rfl, rfl⟩, hmem⟩
        exact ⟨c, hc, (ih c (List.mem_of_getElem? hc)).mp hmem⟩
      · rintro ⟨c, hc, hfollow⟩
        exact ⟨i, c, is, hc, ⟨rfl, rfl⟩, (ih c (List.mem_of_getElem? hc)).mpr hfollow⟩

/-- The nodes of the places are the parts of the tree, in the same order. -/
theorem map_places (n : Node) : n.places.map (·.2) = n.parts := by
  induction n with
  | node payload span cs ih =>
    have hall : ∀ (i : Nat) (ds : List Node), (∀ d ∈ ds, d ∈ cs) →
        (placesAll i ds).map (·.2) = partsAll ds := by
      intro i ds hds
      induction ds generalizing i with
      | nil => rfl
      | cons d ds ihds =>
        rw [placesAll, partsAll, List.map_append, List.map_map,
          ihds (i + 1) fun e he => hds e (List.mem_cons_of_mem d he)]
        exact congrArg (· ++ _) (ih d (hds d List.mem_cons_self))
    rw [places, parts, List.map_cons, hall 0 cs fun d hd => hd]

/-- **Places are listed in document order**: what encloses a place comes before it, and children
    come in the order of their numbers. -/
theorem pairwise_places (n : Node) : (n.places.map (·.1)).Pairwise (· < ·) := by
  induction n with
  | node payload span cs ih =>
    -- Over the children, which come one after another.
    have hall : ∀ (i : Nat) (ds : List Node), (∀ d ∈ ds, d ∈ cs) →
        ((placesAll i ds).map (·.1)).Pairwise (· < ·) := by
      intro i ds hds
      induction ds generalizing i with
      | nil => exact .nil
      | cons d ds ihds =>
        rw [placesAll, List.map_append, List.pairwise_append]
        refine ⟨?_, ihds (i + 1) fun e he => hds e (List.mem_cons_of_mem d he), ?_⟩
        · rw [List.map_map, List.pairwise_map]
          exact (List.pairwise_map.mp (ih d (hds d List.mem_cons_self))).imp
            fun h => List.cons_lt_cons_self.mpr h
        · -- Later children have greater numbers.
          intro js hjs ks hks
          obtain ⟨p, hp, rfl⟩ := List.mem_map.mp hjs
          obtain ⟨q, -, rfl⟩ := List.mem_map.mp hp
          obtain ⟨p, hp, rfl⟩ := List.mem_map.mp hks
          obtain ⟨j, c, ls, -, hls, -⟩ := mem_placesAll.mp hp
          rw [hls]
          exact List.cons_lt_cons_iff.mpr (.inl (by omega))
    rw [places, List.map_cons, List.pairwise_cons]
    refine ⟨fun js hjs => ?_, hall 0 cs fun d hd => hd⟩
    obtain ⟨p, hp, rfl⟩ := List.mem_map.mp hjs
    obtain ⟨j, c, ls, -, hls, -⟩ := mem_placesAll.mp hp
    rw [hls]
    exact List.nil_lt_cons _ _

end Node

/-! ### Locations of places -/

/-- The location of a place: its numbers, each modulo `2 ^ 32`. -/
def Location.ofNumbers (is : List Nat) : Location := ⟨is.map Nat.toUInt32⟩

/-- One number more is one child further down. -/
theorem Location.ofNumbers_append_singleton (is : List Nat) (i : Nat) :
    ofNumbers (is ++ [i]) = (ofNumbers is).child i := by
  rw [ofNumbers, List.map_append]
  rfl

/-- **Where the location of a place leads to**: to the node at the numbers modulo `2 ^ 32`. -/
theorem Node.get?_ofNumbers_mod (n : Node) (is : List Nat) :
    n.get? (Location.ofNumbers is) = n.follow? (is.map (· % 2 ^ 32)) := by
  unfold get? Location.ofNumbers
  induction is generalizing n with
  | nil => rfl
  | cons i is ih =>
    have hword : i.toUInt32.toNat = i % 2 ^ 32 := by
      rw [Nat.toUInt32_eq, UInt32.toNat_ofNat']
    rw [List.map_cons, List.map_cons, descend?, hword]
    exact congrArg _ (funext ih)

/-- Numbers that fit a word stay as they are, so the location of their place addresses its node. -/
theorem Node.get?_ofNumbers_of_lt (n : Node) {is : List Nat} (h : ∀ i ∈ is, i < 2 ^ 32) :
    n.get? (Location.ofNumbers is) = n.follow? is := by
  have hmod : is.map (· % 2 ^ 32) = is :=
    (List.map_congr_left fun i hi => Nat.mod_eq_of_lt (h i hi)).trans (List.map_id' is)
  rw [get?_ofNumbers_mod, hmod]

/-- In a tree whose nodes can be addressed, the numbers of every place fit a word. -/
theorem Node.Addressable.number_lt {n m : Node} (hn : n.Addressable) {is : List Nat}
    (h : n.follow? is = some m) : ∀ i ∈ is, i < 2 ^ 32 := by
  induction is generalizing n with
  | nil => exact fun i hi => absurd hi List.not_mem_nil
  | cons j is ih =>
    obtain ⟨c, hc, h⟩ := follow?_cons_eq_some.mp h
    have hlt := (List.getElem?_eq_some_iff.mp hc).1
    have hle := hn.children_length
    have hchild : c ∈ n.parts := mem_parts_of_child (List.mem_of_getElem? hc) (mem_parts_self c)
    intro i hi
    rcases List.mem_cons.mp hi with rfl | hi
    · omega
    · exact ih (hn.of_mem hchild) h i hi

/-- In a tree whose nodes can be addressed, different places have different locations. -/
theorem Node.eq_of_ofNumbers_eq {n m m' : Node} (hn : n.Addressable) {is js : List Nat}
    (his : n.follow? is = some m) (hjs : n.follow? js = some m')
    (heq : Location.ofNumbers is = Location.ofNumbers js) : is = js := by
  -- Numbers that fit a word can be read back from the location.
  have hback : ∀ ks : List Nat, (∀ i ∈ ks, i < 2 ^ 32) →
      (Location.ofNumbers ks).indices.map UInt32.toNat = ks := by
    intro ks hks
    rw [Location.ofNumbers, List.map_map]
    exact (List.map_congr_left fun i hi => Location.toNat_toUInt32 (hks i hi)).trans
      (List.map_id' ks)
  rw [← hback is (hn.number_lt his), heq, hback js (hn.number_lt hjs)]

/-- The places that enclose a place, nearest first. -/
def enclosingPlaces (is : List Nat) : List (List Nat) := (List.range is.length).reverse.map is.take

/-- The places that enclose one below a child are those in the child and the node itself. -/
theorem enclosingPlaces_cons (i : Nat) (is : List Nat) :
    enclosingPlaces (i :: is) = (enclosingPlaces is).map (i :: ·) ++ [[]] := by
  simp [enclosingPlaces, List.range_succ_eq_map, Function.comp_def]

/-- The locations above the location of a place are those of the enclosing places. -/
theorem Location.ancestors_ofNumbers (is : List Nat) :
    (ofNumbers is).ancestors = (enclosingPlaces is).map ofNumbers := by
  simp [ancestors, enclosingPlaces, ofNumbers, Function.comp_def, List.map_take]

end TreeLint
