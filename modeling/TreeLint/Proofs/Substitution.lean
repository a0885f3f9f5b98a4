import Mathlib
import TreeLint.Proofs.EditQueue

namespace TreeLint

/-!
# Substitution by location

The plain meaning of a set of edits: every node is rebuilt from its rebuilt children, and then the
action at its location, if there is one, takes effect.

* `Node.substitute` is that rebuilding, with no pruning and no sharing.
* `substitute_congr`: only the actions at and below a node matter to it, and
  `substitute_eq_some_self` says that without any the tree stays as it is.
* `getElem?_substituteAll`: a child keeps its index as long as those before it stay as they are.
* `substitute_outermost`: an action below another one has no effect, so it may be left out.
* `mem_parts_substitute`: a replacement with no action above it is part of the result.
-/

/-- What an action leaves at its location. -/
def EditAction.result? : EditAction → Option Node
  | replace node => some node
  | remove => none

namespace Node

mutual

/-- Rebuild the node at `l` bottom up with the actions of `f`; no result means that it is
    removed. -/
def substitute (f : Location → Option EditAction) (l : Location) : Node → Option Node
  | ⟨payload, span, cs⟩ =>
    let rebuilt : Node := ⟨payload, span, substituteAll f l 0 cs⟩
    match f l with
    | some action => action.result?
    | none => some rebuilt

/-- Rebuild the children of the node at `l` from the one with index `i` on. -/
def substituteAll (f : Location → Option EditAction) (l : Location) (i : Nat) :
    List Node → List Node
  | [] => []
  | c :: cs => (substitute f (l.child i) c).toList ++ substituteAll f l (i + 1) cs

end

variable {f g : Location → Option EditAction} {l : Location}

/-- A node with an action becomes what the action leaves. -/
theorem substitute_of_some {n : Node} {action : EditAction} (h : f l = some action) :
    n.substitute f l = action.result? := by
  obtain ⟨payload, span, cs⟩ := n
  rw [substitute, h]

/-- A node without an action stays, and its children are looked at. -/
theorem substitute_of_none {n : Node} (h : f l = none) :
    n.substitute f l = some ⟨n.payload, n.span, substituteAll f l 0 n.children⟩ := by
  obtain ⟨payload, span, cs⟩ := n
  rw [substitute, h]

/-- A node is removed by the action at its own location only. -/
theorem substitute_eq_none_iff {n : Node} : n.substitute f l = none ↔ f l = some .remove := by
  cases hf : f l with
  | none => rw [substitute_of_none hf]; simp
  | some action =>
    rw [substitute_of_some hf]
    cases action <;> simp [EditAction.result?]

/-- The children are substituted one by one, with the numbers they had before. -/
theorem substituteAll_eq (f : Location → Option EditAction) (l : Location) (i : Nat)
    (cs : List Node) :
    substituteAll f l i cs
      = (cs.zipIdx i).flatMap fun p => (p.1.substitute f (l.child p.2)).toList := by
  induction cs generalizing i with
  | nil => rfl
  | cons c cs ih =>
    rw [substituteAll, List.zipIdx_cons, List.flatMap_cons, ih]

/-- Children that come out the same one by one come out the same together. -/
theorem substituteAll_congr {i : Nat} {cs : List Node}
    (h : ∀ p ∈ cs.zipIdx i, p.1.substitute f (l.child p.2) = p.1.substitute g (l.child p.2)) :
    substituteAll f l i cs = substituteAll g l i cs := by
  rw [substituteAll_eq, substituteAll_eq]
  refine List.flatMap_congr ?_
  intro p hp
  rw [h p hp]

/-- Children that the actions do not reach stay as they are. -/
theorem substituteAll_eq_self {i : Nat} {cs : List Node}
    (h : ∀ p ∈ cs.zipIdx i, p.1.substitute f (l.child p.2) = some p.1) :
    substituteAll f l i cs = cs := by
  induction cs generalizing i with
  | nil => rfl
  | cons c cs ih =>
    rw [List.zipIdx_cons] at h
    have hc : c.substitute f (l.child i) = some c := h (c, i) List.mem_cons_self
    rw [substituteAll, hc, ih fun p hp => h p (List.mem_cons_of_mem _ hp)]
    rfl

/-- Substitution adds no children. -/
theorem length_substituteAll_le (f : Location → Option EditAction) (l : Location) (i : Nat)
    (cs : List Node) : (substituteAll f l i cs).length ≤ cs.length := by
  induction cs generalizing i with
  | nil => exact Nat.le_refl 0
  | cons c cs ih =>
    have hc : (c.substitute f (l.child i)).toList.length ≤ 1 := by
      cases c.substitute f (l.child i) <;> simp
    have hcs := ih (i + 1)
    rw [substituteAll, List.length_append, List.length_cons]
    omega

/-- A child keeps its index as long as the children before it stay and it is not removed. -/
theorem getElem?_substituteAll {i j : Nat} {cs : List Node}
    (hbefore : ∀ p ∈ cs.zipIdx i, p.2 < i + j → p.1.substitute f (l.child p.2) = some p.1)
    (hkeep : f (l.child (i + j)) ≠ some .remove) :
    (substituteAll f l i cs)[j]? = cs[j]?.bind fun c => c.substitute f (l.child (i + j)) := by
  induction cs generalizing i j with
  | nil => rfl
  | cons c cs ih =>
    rw [List.zipIdx_cons] at hbefore
    rw [substituteAll]
    cases j with
    | zero =>
      obtain ⟨d, hd⟩ := Option.ne_none_iff_exists'.mp (mt substitute_eq_none_iff.mp hkeep)
      rw [Nat.add_zero] at hd ⊢
      rw [hd]
      exact hd.symm
    | succ j =>
      have hc : c.substitute f (l.child i) = some c :=
        hbefore (c, i) List.mem_cons_self (by omega)
      have hnext : i + (j + 1) = i + 1 + j := by omega
      rw [hnext] at hbefore hkeep ⊢
      rw [hc]
      exact ih (fun p hp => hbefore p (List.mem_cons_of_mem _ hp)) hkeep

/-- **Substitution is local.** Only the actions at and below a node matter. -/
theorem substitute_congr (n : Node) (h : ∀ m, l.contains m = true → f m = g m) :
    n.substitute f l = n.substitute g l := by
  induction n generalizing l with
  | node payload span cs ih =>
    have hcs : substituteAll f l 0 cs = substituteAll g l 0 cs := by
      refine substituteAll_congr ?_
      intro p hp
      refine ih p.1 (List.fst_mem_of_mem_zipIdx hp) ?_
      intro m hm
      exact h m (Location.contains_of_child_contains hm)
    rw [substitute, substitute, hcs, h l (Location.contains_self l)]

/-- Without actions the tree stays as it is. -/
theorem substitute_eq_some_self (n : Node) (h : ∀ m, l.contains m = true → f m = none) :
    n.substitute f l = some n := by
  induction n generalizing l with
  | node payload span cs ih =>
    have hcs : substituteAll f l 0 cs = cs := by
      refine substituteAll_eq_self ?_
      intro p hp
      refine ih p.1 (List.fst_mem_of_mem_zipIdx hp) ?_
      intro m hm
      exact h m (Location.contains_of_child_contains hm)
    rw [substitute_of_none (h l (Location.contains_self l)), hcs]

/-- **An action below another one has no effect.** It is enough that `f` and `g` agree where no
    action of `g` lies strictly above. -/
theorem substitute_outermost (n : Node)
    (h : ∀ m, l.contains m = true →
      (∀ a, l.contains a = true → a.isStrictAncestorOf m = true → g a = none) → f m = g m) :
    n.substitute f l = n.substitute g l := by
  induction n generalizing l with
  | node payload span cs ih =>
    -- Nothing at or below `l` lies strictly above `l`.
    have hl : f l = g l := by
      refine h l (Location.contains_self l) ?_
      intro a ha hal
      have hlen := Location.length_lt_of_isStrictAncestorOf hal
      have hle := (Location.contains_iff_isPrefix.mp ha).length_le
      omega
    cases hg : g l with
    | some action => rw [substitute_of_some hg, substitute_of_some (hl.trans hg)]
    | none =>
      have hcs : substituteAll f l 0 cs = substituteAll g l 0 cs := by
        refine substituteAll_congr ?_
        intro p hp
        refine ih p.1 (List.fst_mem_of_mem_zipIdx hp) ?_
        intro m hm habove
        refine h m (Location.contains_of_child_contains hm) ?_
        intro a hla ham
        by_cases hal : l = a
        · exact hal ▸ hg
        · have hstrict := Location.isStrictAncestorOf_iff.mpr ⟨hla, hal⟩
          exact habove a (Location.child_contains_of_isStrictAncestorOf hm ham hstrict) ham
      rw [substitute_of_none hg, substitute_of_none (hl.trans hg), hcs]

/-- **A replacement shows.** What an action puts in the place of a node is part of the result, if no
    action lies strictly above it. -/
theorem mem_parts_substitute {n x result fixed : Node} {is : List UInt32}
    (hx : n.descend? is = some x) (hact : f ⟨l.indices ++ is⟩ = some (.replace fixed))
    (habove : ∀ a, l.contains a = true → a.isStrictAncestorOf ⟨l.indices ++ is⟩ = true →
      f a = none)
    (h : n.substitute f l = some result) : fixed ∈ result.parts := by
  induction is generalizing n l result with
  | nil =>
    have hact : f l = some (.replace fixed) := by simpa using hact
    rw [substitute_of_some hact, EditAction.result?, Option.some.injEq] at h
    exact h ▸ mem_parts_self fixed
  | cons i is ih =>
    rw [descend?, Option.bind_eq_some_iff] at hx
    obtain ⟨c, hc, hx⟩ := hx
    have hloc : (l.child i.toNat).indices ++ is = l.indices ++ i :: is := by simp
    rw [← hloc] at hact habove
    have hbelow : l.isStrictAncestorOf ⟨(l.child i.toNat).indices ++ is⟩ = true :=
      Location.isStrictAncestorOf_of_child_contains (i := i.toNat)
        (Location.contains_iff_isPrefix.mpr (List.prefix_append _ _))
    -- The child on the way down is not removed: its action is the replacement, or there is none.
    have hkeep : f (l.child i.toNat) ≠ some .remove := by
      cases is with
      | nil =>
        rw [List.append_nil] at hact
        have hact : f (l.child i.toNat) = some (.replace fixed) := hact
        simp [hact]
      | cons j is =>
        have hnone := habove (l.child i.toNat) (Location.contains_child l _)
          (Location.isStrictAncestorOf_of_length
            (Location.contains_iff_isPrefix.mpr (List.prefix_append _ _)) (by simp))
        simp [hnone]
    obtain ⟨d, hd⟩ := Option.ne_none_iff_exists'.mp (mt substitute_eq_none_iff.mp hkeep)
    have hmem : fixed ∈ d.parts :=
      ih hx hact (fun a ha => habove a (Location.contains_of_child_contains ha)) hd
    rw [substitute_of_none (habove l (Location.contains_self l) hbelow), Option.some.injEq] at h
    subst h
    refine mem_parts_of_child ?_ hmem
    show d ∈ substituteAll f l 0 n.children
    rw [substituteAll_eq, List.mem_flatMap]
    exact ⟨(c, i.toNat), List.mem_zipIdx_iff_getElem?.mpr hc, by simp [hd]⟩

end Node

end TreeLint
