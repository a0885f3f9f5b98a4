import Mathlib
import TreeLint.Proofs.EditQueue

namespace TreeLint

/-!
# What a queue remembers of its history

A queue is the outcome of pushes and erasures, and its edits may be gathered into a new queue that
counts from 0 again. What it holds can be told from the operations alone.

* `Queued`, `FirstFound` and `LatestPush` speak about a list of operations and not about queues:
  what is queued at a location, what was found there when it was last opened, and which push was the
  latest. All three are about a push and what was done since (`PushedSince`), so one lemma says what
  a further operation does to them (`pushedSince_concat`). `counted` is the number of pushes since
  the edits were last gathered.
* `Reflects`: a queue says of every location what its history says. `Reflects.perform` is the step,
  `reflects_after` the run.
* `LatestPush.counted_lt` and `LatestPush.location_eq`: as long as nothing is gathered, the counts
  tell the latest pushes of the locations apart.
* `after_remembers` is the result for pushes and erasures.
-/

/-- An operation on a queue. -/
inductive QueueOp where
  | push (location : Location) (found : Node) (action : EditAction)
  | erase (location : Location)
  /-- Gather the edits into a new queue. -/
  | gather

namespace QueueOp

def isPush : QueueOp → Bool
  | push .. => true
  | _ => false

def isGather : QueueOp → Bool
  | gather => true
  | _ => false

/-- The operation is a push or an erasure at `l`. -/
def Touches (l : Location) : QueueOp → Prop
  | push m _ _ => m = l
  | erase m => m = l
  | gather => False

end QueueOp

/-- The queue after one more operation. -/
def EditQueue.perform (q : EditQueue) : QueueOp → EditQueue
  | .push l found action => q.push l found action
  | .erase l => q.erase l
  | .gather => .ofList q.edits

/-- The queue after the operations, from an empty one. -/
def EditQueue.after (ops : List QueueOp) : EditQueue := ops.foldl perform empty

/-! ### Histories -/

/-- The pushes since the edits were last gathered. -/
def counted (ops : List QueueOp) : Nat :=
  (ops.rtakeWhile fun op => !op.isGather).countP (·.isPush)

/-- There was a push at `l` for which `P` holds, and all operations since then meet `R`. -/
def PushedSince (ops : List QueueOp) (l : Location)
    (P : List QueueOp → Node → EditAction → Prop) (R : QueueOp → Prop) : Prop :=
  ∃ before found action after, ops = before ++ .push l found action :: after ∧
    P before found action ∧ ∀ op ∈ after, R op

/-- There was a push at `l`, and no erasure at `l` since. -/
def Queued (ops : List QueueOp) (l : Location) : Prop :=
  PushedSince ops l (fun _ _ _ => True) (· ≠ .erase l)

/-- The first push at `l` since nothing was queued there gave the node `found`. -/
def FirstFound (ops : List QueueOp) (l : Location) (found : Node) : Prop :=
  PushedSince ops l (fun before first _ => ¬ Queued before l ∧ first = found) (· ≠ .erase l)

/-- The latest operation at `l` is a push of `action`, after the operations `before`. -/
def LatestPush (ops : List QueueOp) (l : Location) (action : EditAction)
    (before : List QueueOp) : Prop :=
  PushedSince ops l (fun earlier _ latest => earlier = before ∧ latest = action)
    (¬ ·.Touches l)

section Histories

variable {ops before after : List QueueOp} {op x : QueueOp} {l : Location}

/-- An operation of a history is the last one or one of the others. -/
theorem concat_eq_split (h : ops ++ [op] = before ++ x :: after) :
    (before = ops ∧ x = op ∧ after = []) ∨
      ∃ rest, after = rest ++ [op] ∧ ops = before ++ x :: rest := by
  rcases List.eq_nil_or_concat after with rfl | ⟨rest, y, rfl⟩
  · left
    obtain ⟨hops, hop⟩ := List.append_inj' h rfl
    exact ⟨hops.symm, (List.singleton_inj.mp hop).symm, rfl⟩
  · right
    have hsplit : ops ++ [op] = (before ++ x :: rest) ++ [y] := by simpa using h
    obtain ⟨hops, hop⟩ := List.append_inj' hsplit rfl
    rw [List.singleton_inj] at hop
    exact ⟨rest, by simp [hop], hops⟩

/-- Before the first operation nothing was pushed. -/
theorem not_pushedSince_nil {P : List QueueOp → Node → EditAction → Prop} {R : QueueOp → Prop} :
    ¬ PushedSince [] l P R := by
  rintro ⟨before, found, action, after, hops, -⟩
  simp at hops

/-- **One more operation.** It is such a push itself, or there was one before and it meets `R`. -/
theorem pushedSince_concat {P : List QueueOp → Node → EditAction → Prop} {R : QueueOp → Prop} :
    PushedSince (ops ++ [op]) l P R ↔
      (∃ found action, op = .push l found action ∧ P ops found action) ∨
        (PushedSince ops l P R ∧ R op) := by
  constructor
  · rintro ⟨before, found, action, after, hops, hpush, hafter⟩
    rcases concat_eq_split hops with ⟨rfl, hop, -⟩ | ⟨rest, rfl, hrest⟩
    · exact .inl ⟨found, action, hop.symm, hpush⟩
    · rw [List.forall_mem_append, List.forall_mem_singleton] at hafter
      exact .inr ⟨⟨before, found, action, rest, hrest, hpush, hafter.1⟩, hafter.2⟩
  · rintro (⟨found, action, rfl, hpush⟩ | ⟨⟨before, found, action, after, rfl, hpush, hafter⟩, hop⟩)
    · exact ⟨ops, found, action, [], rfl, hpush, by simp⟩
    · refine ⟨before, found, action, after ++ [op], by simp, hpush, ?_⟩
      rw [List.forall_mem_append, List.forall_mem_singleton]
      exact ⟨hafter, hop⟩

/-- An operation opens a location by a push and closes it by an erasure. -/
theorem queued_concat :
    Queued (ops ++ [op]) l ↔
      (∃ found action, op = .push l found action) ∨ (Queued ops l ∧ op ≠ .erase l) := by
  unfold Queued
  rw [pushedSince_concat]
  simp

/-- The node is fixed by the push that opens a location. Later pushes do not change it. -/
theorem firstFound_concat {found : Node} :
    FirstFound (ops ++ [op]) l found ↔
      (¬ Queued ops l ∧ ∃ action, op = .push l found action) ∨
        (FirstFound ops l found ∧ op ≠ .erase l) := by
  unfold FirstFound
  rw [pushedSince_concat]
  simp [and_comm]

/-- A push is the latest one until the location is touched again. -/
theorem latestPush_concat {action : EditAction} :
    LatestPush (ops ++ [op]) l action before ↔
      (before = ops ∧ ∃ found, op = .push l found action) ∨
        (LatestPush ops l action before ∧ ¬ op.Touches l) := by
  unfold LatestPush
  rw [pushedSince_concat]
  simp [and_comm, eq_comm]

/-- The latest push is one of the operations. -/
theorem LatestPush.exists_eq_append {action : EditAction} (h : LatestPush ops l action before) :
    ∃ found after, ops = before ++ .push l found action :: after := by
  obtain ⟨_, found, _, after, hops, ⟨rfl, rfl⟩, -⟩ := h
  exact ⟨found, after, hops⟩

@[simp] theorem counted_concat_push {found : Node} {action : EditAction} :
    counted (ops ++ [.push l found action]) = counted ops + 1 := by
  simp [counted, QueueOp.isGather, QueueOp.isPush]

@[simp] theorem counted_concat_erase : counted (ops ++ [.erase l]) = counted ops := by
  simp [counted, QueueOp.isGather, QueueOp.isPush]

@[simp] theorem counted_concat_gather : counted (ops ++ [.gather]) = 0 := by
  simp [counted, QueueOp.isGather]

end Histories

/-! ### Queues and their histories -/

namespace EditQueue

/-- An erasure takes away what is queued at its location and nothing else. -/
theorem get?_erase (q : EditQueue) (l m : Location) :
    (q.erase l).get? m = if m = l then none else q.get? m := by
  show (q.edits.filter (·.location ≠ l)).find? (·.location = m) = _
  rw [List.find?_filter]
  by_cases hm : m = l
  · rw [if_pos hm, List.find?_eq_none]
    intro e _
    simp [hm]
  · -- An edit at `m` is not among those that are taken out.
    rw [if_neg hm]
    unfold get?
    congr 1
    funext e
    by_cases he : e.location = m
    · simp [he, hm]
    · simp [he]

/-- Insertions are not counted. -/
theorem revision_foldl_insert (q : EditQueue) (es : List Edit) :
    (es.foldl insert q).revision = q.revision := by
  induction es generalizing q with
  | nil => rfl
  | cons e es ih => exact ih (q.insert e)

/-- Gathering keeps the edits and starts to count anew. -/
theorem get?_ofList_edits (q : EditQueue) (l : Location) : (ofList q.edits).get? l = q.get? l := by
  unfold get?
  rw [edits_ofList q.sorted]

/-- The queue says of every location what its history says. -/
structure Reflects (ops : List QueueOp) (q : EditQueue) : Prop where
  revision : q.revision = counted ops
  queued : ∀ l, Queued ops l ↔ (q.get? l).isSome = true
  found : ∀ l found, FirstFound ops l found ↔ ∃ e, q.get? l = some e ∧ e.found = found
  latest : ∀ l action n, (∃ before, LatestPush ops l action before ∧ n = counted before + 1) ↔
    ∃ e, q.get? l = some e ∧ e.action = action ∧ e.queuedAt = n

variable {ops : List QueueOp} {q : EditQueue}

/-- An empty queue has no history. -/
theorem reflects_empty : empty.Reflects [] where
  revision := rfl
  queued l := by simp [Queued, not_pushedSince_nil, get?, empty]
  found l found := by simp [FirstFound, not_pushedSince_nil, get?, empty]
  latest l action n := by simp [LatestPush, not_pushedSince_nil, get?, empty]

/-- A push keeps the node of an open location and takes the next number. -/
theorem Reflects.push (h : q.Reflects ops) (l : Location) (found : Node) (action : EditAction) :
    (q.push l found action).Reflects (ops ++ [.push l found action]) where
  revision := by
    rw [counted_concat_push, ← h.revision]
    rfl
  queued m := by
    rw [queued_concat, h.queued, get?_push]
    by_cases hm : m = l
    · subst hm
      simp
    · simp [hm, Ne.symm hm]
  found m g := by
    rw [firstFound_concat, h.queued, h.found, get?_push]
    by_cases hm : m = l
    · subst hm
      cases hq : q.get? m with
      | none => simp
      | some e => simp
    · simp [hm, Ne.symm hm]
  latest m a n := by
    rw [get?_push]
    by_cases hm : m = l
    · subst hm
      constructor
      · rintro ⟨before, hbefore, rfl⟩
        rcases latestPush_concat.mp hbefore with ⟨rfl, _, hop⟩ | ⟨-, htouches⟩
        · cases hop
          rw [if_pos rfl, h.revision]
          exact ⟨_, rfl, rfl, rfl⟩
        · exact absurd rfl htouches
      · rintro ⟨e, he, rfl, rfl⟩
        rw [if_pos rfl, Option.some.injEq] at he
        subst he
        exact ⟨ops, latestPush_concat.mpr (.inl ⟨rfl, found, rfl⟩), by rw [h.revision]⟩
    · rw [if_neg hm, ← h.latest]
      -- A push at another location does not make an operation at `m` any less the latest.
      have hother : ∀ before, LatestPush (ops ++ [.push l found action]) m a before ↔
          LatestPush ops m a before := by
        intro before
        rw [latestPush_concat]
        simp [QueueOp.Touches, Ne.symm hm]
      simp only [hother]

/-- An erasure closes a location. The count goes on. -/
theorem Reflects.erase (h : q.Reflects ops) (l : Location) :
    (q.erase l).Reflects (ops ++ [.erase l]) where
  revision := by
    rw [counted_concat_erase, ← h.revision]
    rfl
  queued m := by
    rw [queued_concat, h.queued, get?_erase]
    by_cases hm : m = l
    · simp [hm]
    · simp [hm, Ne.symm hm]
  found m g := by
    rw [firstFound_concat, h.found, get?_erase]
    by_cases hm : m = l
    · simp [hm]
    · simp [hm, Ne.symm hm]
  latest m a n := by
    rw [get?_erase]
    simp only [latestPush_concat]
    by_cases hm : m = l
    · simp [hm, QueueOp.Touches]
    · rw [if_neg hm, ← h.latest]
      simp [QueueOp.Touches, Ne.symm hm]

/-- Gathering keeps all edits with their numbers and counts from 0 again. -/
theorem Reflects.gather (h : q.Reflects ops) : (ofList q.edits).Reflects (ops ++ [.gather]) where
  revision := by
    rw [counted_concat_gather]
    exact revision_foldl_insert empty q.edits
  queued l := by
    rw [queued_concat, h.queued, get?_ofList_edits]
    simp
  found l found := by
    rw [firstFound_concat, h.found, get?_ofList_edits]
    simp
  latest l action n := by
    rw [get?_ofList_edits, ← h.latest]
    simp [latestPush_concat, QueueOp.Touches]

/-- The last operation is performed last. -/
theorem after_concat (ops : List QueueOp) (op : QueueOp) :
    after (ops ++ [op]) = (after ops).perform op := by
  unfold after
  rw [List.foldl_append]
  rfl

/-- **An operation changes the queue as it changes the history.** -/
theorem Reflects.perform (h : q.Reflects ops) (op : QueueOp) :
    (q.perform op).Reflects (ops ++ [op]) := by
  cases op with
  | push l found action => exact h.push l found action
  | erase l => exact h.erase l
  | gather => exact h.gather

/-- **Every queue reflects its history.** -/
theorem reflects_after (ops : List QueueOp) : (after ops).Reflects ops := by
  induction ops using List.reverseRecOn with
  | nil => exact reflects_empty
  | append_singleton ops op ih =>
    rw [after_concat]
    exact ih.perform op

/-- An edit in the queue is the latest push at its location, with the number it got then. -/
theorem Reflects.exists_latest (h : q.Reflects ops) {l : Location} {e : Edit}
    (he : q.get? l = some e) :
    ∃ before, LatestPush ops l e.action before ∧ e.queuedAt = counted before + 1 :=
  (h.latest l e.action e.queuedAt).mpr ⟨e, he, rfl, rfl⟩

/-- An operation is seen where it touches only. -/
theorem get?_perform_of_not_touches (q : EditQueue) {op : QueueOp} {l : Location}
    (h : ¬ op.Touches l) : (q.perform op).get? l = q.get? l := by
  cases op with
  | push m found action => exact get?_push_of_ne q found action (Ne.symm h)
  | erase m =>
    show (q.erase m).get? l = q.get? l
    rw [get?_erase, if_neg (Ne.symm h)]
  | gather => exact get?_ofList_edits q l

end EditQueue

/-! ### Pushes and erasures -/

section Counts

variable {ops before after : List QueueOp} {l m : Location} {a b : EditAction}

/-- As long as nothing is gathered the count goes on. -/
theorem counted_append (before : List QueueOp) (h : QueueOp.gather ∉ after) :
    counted (before ++ after) = counted before + after.countP (·.isPush) := by
  induction after using List.reverseRecOn with
  | nil => simp
  | append_singleton after op ih =>
    rw [List.mem_append, not_or] at h
    rw [← List.append_assoc, List.countP_append]
    cases op with
    | push l found action =>
      rw [counted_concat_push, ih h.1]
      rfl
    | erase l =>
      rw [counted_concat_erase, ih h.1]
      rfl
    | gather => exact absurd (List.mem_singleton_self QueueOp.gather) h.2

/-- As long as nothing is gathered all pushes are counted. -/
theorem counted_eq_countP (h : QueueOp.gather ∉ ops) : counted ops = ops.countP (·.isPush) := by
  have happend := counted_append [] h
  simpa [counted] using happend

/-- The latest push at a location is among those that are counted, if nothing was gathered since. -/
theorem LatestPush.counted_lt (h : LatestPush ops l a before)
    (hgather : QueueOp.gather ∉ ops.drop before.length) : counted before < counted ops := by
  obtain ⟨found, after, rfl⟩ := h.exists_eq_append
  rw [List.drop_left] at hgather
  rw [counted_append before hgather, List.countP_cons_of_pos (by rfl)]
  omega

/-- No two locations had their latest push at the same count. -/
theorem LatestPush.location_eq (hgather : QueueOp.gather ∉ ops) (h : LatestPush ops l a before)
    (h' : LatestPush ops m b after) (hcount : counted before = counted after) : l = m := by
  induction ops using List.reverseRecOn with
  | nil => exact absurd h not_pushedSince_nil
  | append_singleton ops op ih =>
    rw [List.mem_append, not_or] at hgather
    have hearlier : ∀ {k : Location} {c : EditAction} {first : List QueueOp},
        LatestPush ops k c first → counted first < counted ops :=
      fun hk => hk.counted_lt fun hmem => hgather.1 (List.mem_of_mem_drop hmem)
    rcases latestPush_concat.mp h with ⟨rfl, found, hop⟩ | ⟨hold, -⟩
    · rcases latestPush_concat.mp h' with ⟨-, found', hop'⟩ | ⟨hold', -⟩
      · rw [hop, QueueOp.push.injEq] at hop'
        exact hop'.1
      · have hlt := hearlier hold'
        omega
    · rcases latestPush_concat.mp h' with ⟨rfl, -⟩ | ⟨hold', -⟩
      · have hlt := hearlier hold
        omega
      · exact ih hgather.1 hold hold'

end Counts

namespace EditQueue

/-- As long as nothing is gathered no two edits have the same number. -/
theorem nodup_queuedAt_after {ops : List QueueOp} (h : QueueOp.gather ∉ ops) :
    ((after ops).edits.map (·.queuedAt)).Nodup := by
  rw [List.Nodup, List.pairwise_map]
  refine (after ops).sorted.imp_of_mem ?_
  intro d e hd he hlt heq
  obtain ⟨before, hbefore, hcount⟩ := (reflects_after ops).exists_latest (mem_edits_iff.mp hd)
  obtain ⟨before', hbefore', hcount'⟩ := (reflects_after ops).exists_latest (mem_edits_iff.mp he)
  have hsame := hbefore.location_eq h hbefore' (by omega)
  exact Location.lt_irrefl _ (hsame ▸ hlt)

/-- **A queue remembers its history.** After any pushes and erasures, in any order and at any
    locations: the edits are listed in strictly increasing order of their locations, and the list
    shows what is found at each location. Something is queued at a location if and only if there
    was a push and no erasure since. The edit there remembers what the first push found since
    nothing was queued there, has the action of the latest push, and is dated with the number of
    pushes up to that one. The revision is the number of all pushes, which is at most the number of
    operations; no two edits have one date and no date is later. A further operation changes nothing
    at the locations that it does not touch. -/
theorem after_remembers (ops : List QueueOp) (h : QueueOp.gather ∉ ops) :
    ((after ops).edits.map (·.location)).Pairwise (· < ·) ∧
    (∀ e, e ∈ (after ops).edits ↔ (after ops).get? e.location = some e) ∧
    (∀ l, ((after ops).get? l).isSome = true ↔ Queued ops l) ∧
    (∀ l e, (after ops).get? l = some e →
      FirstFound ops l e.found ∧
        ∃ before, LatestPush ops l e.action before ∧
          e.queuedAt = before.countP (·.isPush) + 1) ∧
    (after ops).revision = ops.countP (·.isPush) ∧
    (after ops).revision ≤ ops.length ∧
    ((after ops).edits.map (·.queuedAt)).Nodup ∧
    (∀ e ∈ (after ops).edits, e.queuedAt ≤ (after ops).revision) ∧
    ∀ op l, ¬ op.Touches l → ((after ops).perform op).get? l = (after ops).get? l := by
  have hreflects := reflects_after ops
  have hrevision : (after ops).revision = ops.countP (·.isPush) :=
    hreflects.revision.trans (counted_eq_countP h)
  refine ⟨?_, fun e => mem_edits_iff, fun l => (hreflects.queued l).symm, ?_, hrevision, ?_,
    nodup_queuedAt_after h, ?_, fun op l => get?_perform_of_not_touches _⟩
  · rw [List.pairwise_map]
    exact (after ops).sorted
  · intro l e he
    refine ⟨(hreflects.found l e.found).mpr ⟨e, he, rfl⟩, ?_⟩
    obtain ⟨before, hbefore, hqueued⟩ := hreflects.exists_latest he
    -- Nothing was gathered before the push either, so all pushes up to it were counted.
    have hgather : QueueOp.gather ∉ before := by
      obtain ⟨found, after, rfl⟩ := hbefore.exists_eq_append
      exact fun hmem => h (List.mem_append_left _ hmem)
    exact ⟨before, hbefore, by rw [hqueued, counted_eq_countP hgather]⟩
  · rw [hrevision]
    exact List.countP_le_length
  · intro e he
    obtain ⟨before, hbefore, hqueued⟩ := hreflects.exists_latest (mem_edits_iff.mp he)
    have hlt := hbefore.counted_lt fun hmem => h (List.mem_of_mem_drop hmem)
    rw [hreflects.revision]
    omega

/-- A text of the sample. -/
def word (s : String) : Node := .ofPayload (.text s) []

/-- Operations of the sample: a location that is pushed to twice, and one that is opened again. -/
def sampleOps : List QueueOp :=
  [ .push ⟨[2]⟩ (word "a") (.replace (word "b")),
    .push ⟨[0, 1]⟩ (word "x") .remove,
    .push ⟨[2]⟩ (word "b") (.replace (word "c")),
    .erase ⟨[0, 1]⟩,
    .push ⟨[0, 1]⟩ (word "y") .remove ]

/-- The edit that was overwritten still guards against changes of the first node; the one that was
    erased in between has forgotten it. -/
theorem after_remembers_sample :
    QueueOp.gather ∉ sampleOps ∧
      (after sampleOps).edits
        = [⟨⟨[0, 1]⟩, word "y", .remove, 4⟩, ⟨⟨[2]⟩, word "a", .replace (word "c"), 3⟩] ∧
      (after sampleOps).revision = sampleOps.countP (·.isPush) ∧
      FirstFound sampleOps ⟨[2]⟩ (word "a") ∧
      FirstFound sampleOps ⟨[0, 1]⟩ (word "y") ∧
      ∃ before, LatestPush sampleOps ⟨[2]⟩ (.replace (word "c")) before ∧
        3 = before.countP (·.isPush) + 1 := by
  have hgather : QueueOp.gather ∉ sampleOps := by simp [sampleOps]
  have hedits : (after sampleOps).edits
      = [⟨⟨[0, 1]⟩, word "y", .remove, 4⟩, ⟨⟨[2]⟩, word "a", .replace (word "c"), 3⟩] := rfl
  obtain ⟨-, hlisted, -, hedit, hrevision, -⟩ := after_remembers sampleOps hgather
  have hfirst := hedit ⟨[0, 1]⟩ _ ((hlisted _).mp (hedits ▸ List.mem_cons_self))
  have hsecond := hedit ⟨[2]⟩ _
    ((hlisted _).mp (hedits ▸ List.mem_cons_of_mem _ List.mem_cons_self))
  exact ⟨hgather, hedits, hrevision, hsecond.1, hfirst.1, hsecond.2⟩

end EditQueue

end TreeLint
