import Mathlib
import TreeLint.Rule.Traversal

namespace TreeLint

/-!
# The directive that a child comes under

While children are walked, at most one directive waits for the next child that is no comment. A
comment that holds a directive takes the place of the one that waited, any other comment leaves it
waiting, and a child that is no comment takes it.

* `pendingAfter` is the directive that waits after some children, and `scopeFrom` the one that the
  child at an index comes under. Neither mentions the walk.
* `DirectiveFor` says, without any waiting, that a comment holds a directive and that the child at
  an index is the next sibling that is no comment.
* `scopeAt_eq_some_iff`: a child comes under the last of the directives that are for it.
-/

/-- The directive that a comment holds. -/
def Node.directive? (n : Node) : Option Suppression := n.commentText?.bind Suppression.parse?

/-- The directive that waits after the child `c`, if `pending` waited before it. -/
def nextPending (pending : Option Suppression) (c : Node) : Option Suppression :=
  c.directive? <|> if c.commentText?.isSome then pending else none

/-- The directive that waits after the children `cs`, if `pending` waited before them. -/
def pendingAfter (pending : Option Suppression) (cs : List Node) : Option Suppression :=
  cs.foldl nextPending pending

/-- The directive that the child with index `j` comes under, if `pending` waits before the
    children. -/
def scopeFrom (pending : Option Suppression) (cs : List Node) (j : Nat) : Option Suppression :=
  if (cs[j]?.bind Node.commentText?).isSome then none else pendingAfter pending (cs.take j)

/-- The directive that the child with index `j` comes under. -/
abbrev scopeAt (cs : List Node) (j : Nat) : Option Suppression := scopeFrom none cs j

theorem scopeFrom_zero (pending : Option Suppression) (c : Node) (cs : List Node) :
    scopeFrom pending (c :: cs) 0 = if c.commentText?.isSome then none else pending := rfl

theorem scopeFrom_succ (pending : Option Suppression) (c : Node) (cs : List Node) (j : Nat) :
    scopeFrom pending (c :: cs) (j + 1) = scopeFrom (nextPending pending c) cs j := rfl

/-- The child at index `i` is a comment that holds the directive `d`, and the child at index `j` is
    the next one that is no comment. -/
structure DirectiveFor (cs : List Node) (i j : Nat) (d : Suppression) : Prop where
  lt : i < j
  directive : cs[i]?.bind Node.directive? = some d
  comments : ∀ k, i < k → k < j → (cs[k]?.bind Node.commentText?).isSome = true
  target : ∃ c, cs[j]? = some c ∧ c.commentText? = none

/-- The directive that waits before a child is the last one of the comments directly before it. -/
theorem pendingAfter_take_eq_some_iff {cs : List Node} {j : Nat} (hj : j ≤ cs.length)
    {d : Suppression} :
    pendingAfter none (cs.take j) = some d ↔
      ∃ i < j, cs[i]?.bind Node.directive? = some d ∧
        ∀ k, i < k → k < j → (cs[k]?.bind Node.commentText?).isSome = true ∧
          cs[k]?.bind Node.directive? = none := by
  induction j with
  | zero => simp [pendingAfter]
  | succ j ih =>
    have hlt : j < cs.length := hj
    have hget : cs[j]? = some cs[j] := List.getElem?_eq_getElem hlt
    have hstep : pendingAfter none (cs.take (j + 1))
        = nextPending (pendingAfter none (cs.take j)) cs[j] := by
      rw [pendingAfter, List.take_add_one, hget, List.foldl_append]
      rfl
    rw [hstep, nextPending]
    cases hdirective : cs[j].directive? with
    | some d' =>
      -- The directive of the last comment takes the place of the others.
      constructor
      · intro h
        exact ⟨j, Nat.lt_succ_self j, by rw [hget]; exact hdirective.trans h, fun k _ _ => by omega⟩
      · rintro ⟨i, hi, hd, hbetween⟩
        rcases Nat.lt_succ_iff_lt_or_eq.mp hi with hij | rfl
        · have hnone := (hbetween j hij (Nat.lt_succ_self j)).2
          rw [hget, Option.bind_some, hdirective] at hnone
          exact absurd hnone (Option.some_ne_none d')
        · rw [hget, Option.bind_some, hdirective] at hd
          exact hd
    | none =>
      have hnot : ∀ i, i < j + 1 → cs[i]?.bind Node.directive? = some d → i < j := by
        intro i hi hd
        rcases Nat.lt_succ_iff_lt_or_eq.mp hi with hij | rfl
        · exact hij
        · rw [hget, Option.bind_some, hdirective] at hd
          exact absurd hd.symm (Option.some_ne_none d)
      show (if cs[j].commentText?.isSome then pendingAfter none (cs.take j) else none) = some d ↔ _
      cases hcomment : cs[j].commentText? with
      | none =>
        constructor
        · intro h
          exact absurd h.symm (Option.some_ne_none d)
        · rintro ⟨i, hi, hd, hbetween⟩
          have hsome := (hbetween j (hnot i hi hd) (Nat.lt_succ_self j)).1
          rw [hget, Option.bind_some, hcomment] at hsome
          exact absurd hsome Bool.false_ne_true
      | some text =>
        refine (ih (Nat.le_of_lt hlt)).trans ⟨?_, ?_⟩
        · rintro ⟨i, hi, hd, hbetween⟩
          refine ⟨i, Nat.lt_succ_of_lt hi, hd, fun k hik hk => ?_⟩
          rcases Nat.lt_succ_iff_lt_or_eq.mp hk with hkj | rfl
          · exact hbetween k hik hkj
          · rw [hget, Option.bind_some, Option.bind_some, hcomment, hdirective]
            exact ⟨rfl, rfl⟩
        · rintro ⟨i, hi, hd, hbetween⟩
          exact ⟨i, hnot i hi hd, hd, fun k hik hk => hbetween k hik (Nat.lt_succ_of_lt hk)⟩

/-- **A child comes under the last directive that is for it.** -/
theorem scopeAt_eq_some_iff {cs : List Node} {j : Nat} {c : Node} (hc : cs[j]? = some c)
    {d : Suppression} :
    scopeAt cs j = some d ↔ ∃ i, DirectiveFor cs i j d ∧
      ∀ k, i < k → k < j → cs[k]?.bind Node.directive? = none := by
  have hj : j ≤ cs.length := Nat.le_of_lt (List.getElem?_eq_some_iff.mp hc).1
  show scopeFrom none cs j = some d ↔ _
  rw [scopeFrom, hc, Option.bind_some]
  cases hcomment : c.commentText? with
  | some text =>
    constructor
    · intro h
      exact absurd h.symm (Option.some_ne_none d)
    · rintro ⟨i, ⟨-, -, -, c', hc', hnone⟩, -⟩
      rw [hc, Option.some.injEq] at hc'
      rw [← hc', hcomment] at hnone
      exact absurd hnone (Option.some_ne_none text)
  | none =>
    show pendingAfter none (cs.take j) = some d ↔ _
    rw [pendingAfter_take_eq_some_iff hj]
    constructor
    · rintro ⟨i, hi, hd, hbetween⟩
      exact ⟨i, ⟨hi, hd, fun k hik hk => (hbetween k hik hk).1, c, hc, hcomment⟩,
        fun k hik hk => (hbetween k hik hk).2⟩
    · rintro ⟨i, hfor, hlast⟩
      exact ⟨i, hfor.lt, hfor.directive, fun k hik hk => ⟨hfor.comments k hik hk, hlast k hik hk⟩⟩

end TreeLint
