import Mathlib
import TreeLint.Proofs.QueueHistory
import TreeLint.Proofs.Resolution

namespace TreeLint

/-!
# Dates and recency

Whether a replacement carries an edit below it is decided by their dates: what is dated earlier is
taken to be part of the tree that the replacement was made from. So the edit of the latest push has
to be dated after all others.

* `EditQueue.IsNewest`: the edit at a location is dated after all others. A push brings this about
  if and only if no other edit is dated after the count of pushes (`isNewest_push_iff`).
* `Edit.IsShownIn`: what the test for absorbed edits asks besides the dates. For the newest edit it
  is all that counts (`carries_iff_of_isNewest`).
* `after_push_isNewest` is the result, in terms of the history: dates can be wrong only if the edits
  were gathered, because the count then starts again while the dates stay. The first push after that
  is dated before every other edit, or at the same time (`after_gather_push`).
-/

/-- The replacement `node` shows the edit: some part of it is structurally equal to the replacement
    of the edit, or the edit removes its node. -/
def Edit.IsShownIn (e : Edit) (node : Node) : Prop :=
  e.action = .remove ∨
    ∃ fixed, e.action = .replace fixed ∧ ∃ part ∈ node.parts, (part == fixed) = true

namespace EditQueue

/-- The edit at `l` is dated after all others. -/
def IsNewest (q : EditQueue) (l : Location) : Prop :=
  ∃ e, q.get? l = some e ∧ ∀ m d, m ≠ l → q.get? m = some d → d.queuedAt < e.queuedAt

/-- A push gives the newest edit if and only if the others are dated within the count of pushes. -/
theorem isNewest_push_iff (q : EditQueue) (l : Location) (found : Node) (action : EditAction) :
    (q.push l found action).IsNewest l ↔
      ∀ m d, m ≠ l → q.get? m = some d → d.queuedAt ≤ q.revision := by
  unfold IsNewest
  rw [get?_push_self]
  constructor
  · rintro ⟨e, he, hnewest⟩ m d hm hd
    cases he
    rw [← get?_push_of_ne q found action hm] at hd
    exact Nat.lt_succ_iff.mp (hnewest m d hm hd)
  · intro h
    refine ⟨_, rfl, ?_⟩
    intro m d hm hd
    rw [get?_push_of_ne q found action hm] at hd
    exact Nat.lt_succ_iff.mpr (h m d hm hd)

/-- The newest edit carries whatever its replacement shows. -/
theorem carries_iff_of_isNewest {q : EditQueue} {l m : Location} {d e : Edit} {node : Node}
    (h : q.IsNewest l) (he : q.get? l = some e) (haction : e.action = .replace node) (hm : m ≠ l)
    (hd : q.get? m = some d) : e.carries d = true ↔ d.IsShownIn node := by
  obtain ⟨e', he', hnewest⟩ := h
  rw [he, Option.some.injEq] at he'
  subst he'
  rw [Edit.carries_iff]
  constructor
  · rintro ⟨node', hnode', -, hshown⟩
    rw [haction, EditAction.replace.injEq] at hnode'
    rw [hnode']
    exact hshown
  · intro hshown
    exact ⟨node, haction, hnewest m d hm hd, hshown⟩

/-- The edit of a push is the newest one if and only if the count has reached the dates of the other
    edits that were gathered and not pushed again. -/
theorem after_push_isNewest_iff (ops : List QueueOp) (l : Location) (found : Node)
    (action : EditAction) :
    (after (ops ++ [QueueOp.push l found action])).IsNewest l ↔
      ∀ (m : Location) (a : EditAction) (before : List QueueOp), m ≠ l →
        LatestPush ops m a before → QueueOp.gather ∈ ops.drop before.length →
          counted before < counted ops := by
  have hreflects := reflects_after ops
  rw [after_concat]
  show ((after ops).push l found action).IsNewest l ↔ _
  rw [isNewest_push_iff, hreflects.revision]
  constructor
  · intro h m a before hm hbefore _
    obtain ⟨d, hd, -, hqueued⟩ := (hreflects.latest m a _).mp ⟨before, hbefore, rfl⟩
    have hle := h m d hm hd
    omega
  · intro h m d hm hd
    obtain ⟨before, hbefore, hqueued⟩ := hreflects.exists_latest hd
    -- Without gathering since its push the edit is dated within the count anyway.
    have hlt : counted before < counted ops := by
      by_cases hgather : QueueOp.gather ∈ ops.drop before.length
      · exact h m d.action before hm hbefore hgather
      · exact hbefore.counted_lt hgather
    omega

/-- The first push after gathering is dated no later than any edit that was gathered. -/
theorem after_gather_push {ops : List QueueOp} {l m : Location} {d e : Edit} (found : Node)
    (action : EditAction) (hm : m ≠ l)
    (hd : (after (ops ++ [QueueOp.gather, QueueOp.push l found action])).get? m = some d)
    (he : (after (ops ++ [QueueOp.gather, QueueOp.push l found action])).get? l = some e) :
    e.queuedAt ≤ d.queuedAt := by
  have hreflects := reflects_after (ops ++ [.gather])
  have hpush : after (ops ++ [.gather, .push l found action])
      = (after (ops ++ [.gather])).push l found action := by
    rw [List.append_cons, after_concat]
    rfl
  rw [hpush] at hd he
  rw [get?_push_of_ne _ found action hm] at hd
  rw [get?_push_self, Option.some.injEq] at he
  have hfirst : e.queuedAt = 1 := by
    rw [← he, hreflects.revision, counted_concat_gather]
  -- No date is earlier than the first.
  obtain ⟨before, -, hqueued⟩ := hreflects.exists_latest hd
  omega

/-- **Recency.** After any pushes, erasures and gatherings, the edit of a further push is dated
    after all others if and only if the count of pushes since the last gathering has reached the
    date of every other edit that was gathered and not pushed again. If it is, the test for absorbed
    edits is right about it: its replacement carries the edits that it shows. Without gathering it
    always is.
    Directly after gathering it never is, as soon as something else is queued, and it carries
    nothing, whatever its replacement shows. -/
theorem after_push_isNewest (ops : List QueueOp) (l : Location) (found : Node)
    (action : EditAction) :
    ((after (ops ++ [QueueOp.push l found action])).IsNewest l ↔
      ∀ (m : Location) (a : EditAction) (before : List QueueOp), m ≠ l →
        LatestPush ops m a before → QueueOp.gather ∈ ops.drop before.length →
          counted before < counted ops) ∧
    ((after (ops ++ [QueueOp.push l found action])).IsNewest l →
      ∀ (node : Node) (m : Location) (d e : Edit), action = .replace node → m ≠ l →
        (after (ops ++ [QueueOp.push l found action])).get? m = some d →
        (after (ops ++ [QueueOp.push l found action])).get? l = some e →
          (e.carries d = true ↔ d.IsShownIn node)) ∧
    (QueueOp.gather ∉ ops → (after (ops ++ [QueueOp.push l found action])).IsNewest l) ∧
    ∀ m : Location, m ≠ l → Queued ops m →
      ¬ (after (ops ++ [QueueOp.gather, QueueOp.push l found action])).IsNewest l ∧
        ∀ d e : Edit,
          (after (ops ++ [QueueOp.gather, QueueOp.push l found action])).get? m = some d →
          (after (ops ++ [QueueOp.gather, QueueOp.push l found action])).get? l = some e →
            e.carries d = false := by
  have hiff := after_push_isNewest_iff ops l found action
  refine ⟨hiff, ?_, ?_, ?_⟩
  · intro hnewest node m d e haction hm hd he
    refine carries_iff_of_isNewest hnewest he ?_ hm hd
    rw [after_concat] at he
    have hself : some e = some _ := he.symm.trans (get?_push_self (after ops) l found action)
    rw [Option.some.inj hself]
    exact haction
  · intro hgather
    refine hiff.mpr fun m a before _ _ hmem => ?_
    exact absurd (List.mem_of_mem_drop hmem) hgather
  · intro m hm hqueued
    constructor
    -- What was gathered has kept its number, and the push got the first of the new count.
    · rintro ⟨e, he, hnewest⟩
      have hsome : ((after (ops ++ [.gather, .push l found action])).get? m).isSome = true := by
        rw [← (reflects_after _).queued, List.append_cons, queued_concat, queued_concat]
        exact .inr ⟨.inr ⟨hqueued, by simp⟩, by simp⟩
      obtain ⟨d, hd⟩ := Option.isSome_iff_exists.mp hsome
      have hlt := hnewest m d hm hd
      have hle := after_gather_push found action hm hd he
      omega
    · intro d e hd he
      have hle := after_gather_push found action hm hd he
      rw [Bool.eq_false_iff]
      intro hcarries
      obtain ⟨-, -, hlt, -⟩ := Edit.carries_iff.mp hcarries
      omega

/-- The list of the samples, with its one item and without it. -/
def itemList (items : List Node) : Node := .ofPayload (.element "ul" [] false) items

/-- The push that empties the list, after its item was removed. -/
def emptyingPush : QueueOp := .push .root (itemList [word "a"]) (.replace (itemList []))

/-- The removal of the item. -/
def removingPush : QueueOp := .push ⟨[0]⟩ (word "a") .remove

/-- One push between the gathering and the last push is enough for the count to reach the date of
    the edit that was gathered. -/
theorem after_push_isNewest_sample :
    (after [removingPush, emptyingPush]).IsNewest .root ∧
      (after [removingPush, .gather, .push ⟨[1]⟩ (word "b") .remove, emptyingPush]).IsNewest .root ∧
      ¬ (after [removingPush, .gather, emptyingPush]).IsNewest .root := by
  have hshort := after_push_isNewest [removingPush] .root (itemList [word "a"])
    (.replace (itemList []))
  have hlong := after_push_isNewest [removingPush, .gather, .push ⟨[1]⟩ (word "b") .remove] .root
    (itemList [word "a"]) (.replace (itemList []))
  refine ⟨hshort.2.2.1 (by simp [removingPush]), hlong.1.mpr ?_, ?_⟩
  · -- Only the removal was pushed before the gathering.
    intro m a before _ hbefore hgather
    obtain ⟨found, after, hops⟩ := hbefore.exists_eq_append
    rcases before with _ | ⟨x, _ | ⟨y, _ | ⟨z, before⟩⟩⟩
    · decide
    · simp at hops
    · simp at hgather
    · simp at hops
  · exact (hshort.2.2.2 ⟨[0]⟩ (by decide) ⟨[], word "a", .remove, [], rfl, trivial, by simp⟩).1

/-- **Gathering breaks recency.** The list is emptied after its item was removed, so the replacement
    shows the removal, and without gathering the removal is absorbed. If the edits are gathered in
    between, both edits have one date and the removal counts as lost in a conflict. -/
theorem gathered_push_not_newest :
    (after [removingPush, .gather, emptyingPush]).edits.map (fun e => (e.location, e.queuedAt))
        = [(.root, 1), (⟨[0]⟩, 1)] ∧
      ¬ (after [removingPush, .gather, emptyingPush]).IsNewest .root ∧
      (after [removingPush, emptyingPush]).resolve.absorbed = [(⟨[0]⟩, .root)] ∧
      (after [removingPush, .gather, emptyingPush]).resolve.absorbed = [] ∧
      (after [removingPush, .gather, emptyingPush]).resolve.conflicts = [⟨.root, ⟨[0]⟩⟩] := by
  refine ⟨by decide, ?_, by decide, by decide, by decide⟩
  intro hnewest
  have hlatest : LatestPush [removingPush, .gather] ⟨[0]⟩ .remove [] :=
    ⟨[], word "a", .remove, [.gather], rfl, ⟨rfl, rfl⟩, by simp [QueueOp.Touches]⟩
  have hlt := (after_push_isNewest_iff [removingPush, .gather] .root _ _).mp hnewest ⟨[0]⟩ .remove
    [] (by decide) hlatest (by simp)
  exact absurd hlt (by decide)

end EditQueue

end TreeLint
