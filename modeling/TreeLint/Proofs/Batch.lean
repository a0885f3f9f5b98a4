import Mathlib
import TreeLint.Proofs.Application

namespace TreeLint

/-!
# A batch of edits, one edit at a time

A removal shifts the siblings after it, so edits cannot be made one at a time in any order. From the
last location to the first they can: an edit disturbs only what comes after it or lies below it, and
those locations have been dealt with already.

* `ActsAfter f l`: all actions of `f` come after `l`, and none lies below it.
* `get?_substitute`: what stands on the way to `l` stays addressable by the same locations under
  such actions, and what stands at `l` stays as it is (`get?_substitute_self`). An edit at `l` is
  therefore judged fresh or stale as before.
* `substitute_update`: one more action at `l` can be carried out after the others.
* `applyEdits_eq_foldl` is the result for a queue without nested edits. The trees in between need
  not be addressable, since a replacement may be any tree; the nodes above the next edit are.
-/

/-- Every action of `f` comes after `l` and is not below it. -/
def ActsAfter (f : Location → Option EditAction) (l : Location) : Prop :=
  ∀ m, f m ≠ none → l < m ∧ l.contains m = false

namespace ActsAfter

variable {f : Location → Option EditAction} {l m k : Location} {i j : Nat}

/-- No action lies at `l` or above. -/
theorem eq_none_of_contains (h : ActsAfter f l) (hm : m.contains l = true) : f m = none := by
  by_contra hne
  exact Location.not_lt_of_contains hm (h m hne).1

/-- No action lies at `l` or below. -/
theorem eq_none_of_contained (h : ActsAfter f l) (hm : l.contains m = true) : f m = none := by
  by_contra hne
  rw [(h m hne).2] at hm
  exact Bool.noConfusion hm

/-- No action lies below an earlier child of a node above `l`. -/
theorem eq_none_of_earlier (h : ActsAfter f l) (hij : i < j) (hj : j < 2 ^ 32)
    (hl : (k.child j).contains l = true) (hm : (k.child i).contains m = true) : f m = none := by
  by_contra hne
  have hlt : m < l := Location.lt_of_child_contains hij hj hm hl
  exact Location.lt_irrefl m (Location.lt_trans hlt (h m hne).1)

end ActsAfter

namespace Node

variable {f : Location → Option EditAction} {l m : Location} {i : Nat}

/-! ### What such actions leave alone -/

/-- An earlier child of a node above `l` stays as it is. -/
theorem substitute_earlier (hf : ActsAfter f l) {j : Nat} (hij : i < j) (hj : j < 2 ^ 32)
    (hl : (m.child j).contains l = true) (c : Node) :
    c.substitute f (m.child i) = some c :=
  substitute_eq_some_self c fun _ hk => hf.eq_none_of_earlier hij hj hl hk

/-- **The way to `l` stays.** A location on the way to `l` addresses, after the substitution, what
    the substitution makes of the node that it addressed before. -/
theorem get?_substitute (hf : ActsAfter f l) {tree result : Node}
    (hresult : tree.substitute f Location.root = some result) (hm : m.contains l = true) :
    result.get? m = (tree.get? m).bind fun n => n.substitute f m := by
  obtain ⟨is⟩ := m
  induction is using List.reverseRecOn with
  | nil => exact hresult.symm
  | append_singleton is w ih =>
    -- One step down, from the location `up` to its child with the index `w`.
    let up : Location := ⟨is⟩
    have hchild : up.child w.toNat = ⟨is ++ [w]⟩ := by
      show Location.mk (is ++ [w.toNat.toUInt32]) = _
      rw [Nat.toUInt32_eq, UInt32.ofNat_toNat]
    have hword : w.toNat < 2 ^ 32 := w.toNat_lt
    rw [← hchild] at hm ⊢
    have hup : up.contains l = true := Location.contains_of_child_contains hm
    rw [get?_child result up hword, get?_child tree up hword, ih hup]
    cases hn : tree.get? up with
    | none => rfl
    | some n =>
      have hkeep : f (up.child (0 + w.toNat)) ≠ some .remove := by
        rw [Nat.zero_add, hf.eq_none_of_contains hm]
        exact fun h => absurd h.symm (Option.some_ne_none _)
      have hbefore : ∀ p ∈ n.children.zipIdx, p.2 < 0 + w.toNat →
          p.1.substitute f (up.child p.2) = some p.1 := by
        intro p _ hlt
        exact substitute_earlier hf (by omega) hword hm p.1
      have hindex := getElem?_substituteAll hbefore hkeep
      rw [Nat.zero_add] at hindex
      rw [Option.bind_some, substitute_of_none (hf.eq_none_of_contains hup), Option.bind_some,
        Option.bind_some]
      exact hindex

/-- What stands at `l` stays as it is. -/
theorem get?_substitute_self (hf : ActsAfter f l) {tree result : Node}
    (hresult : tree.substitute f Location.root = some result) : result.get? l = tree.get? l := by
  rw [get?_substitute hf hresult (Location.contains_self l)]
  cases tree.get? l with
  | none => rfl
  | some n => exact substitute_eq_some_self n fun _ hm => hf.eq_none_of_contained hm

/-- A node above `l` gets no more children. -/
theorem length_children_substitute_le (hf : ActsAfter f l) {tree result n : Node}
    (htree : tree.Addressable) (hresult : tree.substitute f Location.root = some result)
    (hm : m.contains l = true) (hn : result.get? m = some n) : n.children.length ≤ 2 ^ 32 := by
  rw [get?_substitute hf hresult hm, Option.bind_eq_some_iff] at hn
  obtain ⟨n₀, hn₀, hn⟩ := hn
  rw [substitute_of_none (hf.eq_none_of_contains hm), Option.some.injEq] at hn
  calc n.children.length
      = (substituteAll f m 0 n₀.children).length := by rw [← hn]
    _ ≤ n₀.children.length := length_substituteAll_le f m 0 n₀.children
    _ ≤ 2 ^ 32 := (htree.of_mem (mem_parts_of_get? hn₀)).children_length

/-! ### One more action -/

/-- The single action at `l`, if there is one. -/
def onlyAt (l : Location) (a : Option EditAction) : Location → Option EditAction :=
  Function.update (fun _ => none) l a

/-- Nothing happens elsewhere. -/
theorem onlyAt_of_ne (a : Option EditAction) (h : m ≠ l) : onlyAt l a m = none := by
  rw [onlyAt, Function.update_of_ne h]

/-- The action at `l` does not reach the children of a node above it other than the one on the
    way. -/
theorem ne_of_child_contains {k : Location} {j : Nat} (hi : i < 2 ^ 32) (hj : j < 2 ^ 32)
    (hij : i ≠ j) (hl : (m.child j).contains l = true) (hk : (m.child i).contains k = true) :
    k ≠ l := by
  rintro rfl
  exact hij (Location.child_contains_inj hi hj hk hl)

/-- After the child on the way to `l` the action at `l` makes no difference. -/
theorem substituteAll_update_later {j : Nat} (hj : j < 2 ^ 32)
    (hl : (m.child j).contains l = true) (a : Option EditAction) (hij : j < i) (cs : List Node)
    (hlength : i + cs.length ≤ 2 ^ 32) :
    substituteAll (Function.update f l a) m i cs = substituteAll f m i cs := by
  refine substituteAll_congr ?_
  intro p hp
  have hlower := List.le_snd_of_mem_zipIdx hp
  have hupper := List.snd_lt_add_of_mem_zipIdx hp
  refine substitute_congr p.1 ?_
  intro k hk
  exact Function.update_of_ne (ne_of_child_contains (by omega) hj (by omega) hl hk) a f

/-- The children of a node above `l`: the action at `l` can be carried out after the others, if that
    is so for the child on the way. -/
theorem substituteAll_update (hf : ActsAfter f l) {j : Nat} (hj : j < 2 ^ 32)
    (hl : (m.child j).contains l = true) (a : Option EditAction) (hij : i ≤ j) (cs : List Node)
    (hlength : i + cs.length ≤ 2 ^ 32)
    (hchild : ∀ c ∈ cs, c.substitute (Function.update f l a) (m.child j)
      = (c.substitute f (m.child j)).bind fun d => d.substitute (onlyAt l a) (m.child j)) :
    substituteAll (Function.update f l a) m i cs
      = substituteAll (onlyAt l a) m i (substituteAll f m i cs) := by
  induction cs generalizing i with
  | nil => rfl
  | cons c cs ih =>
    rw [List.length_cons] at hlength
    rcases Nat.lt_or_eq_of_le hij with hlt | rfl
    · -- An earlier child is reached by no action at all.
      have hnone : ∀ k, (m.child i).contains k = true → k ≠ l ∧ f k = none := by
        intro k hk
        exact ⟨ne_of_child_contains (by omega) hj (by omega) hl hk,
          hf.eq_none_of_earlier hlt hj hl hk⟩
      have hc : c.substitute f (m.child i) = some c := substitute_earlier hf hlt hj hl c
      have hupdate : c.substitute (Function.update f l a) (m.child i) = some c := by
        refine substitute_eq_some_self c ?_
        intro k hk
        rw [Function.update_of_ne (hnone k hk).1]
        exact (hnone k hk).2
      have honly : c.substitute (onlyAt l a) (m.child i) = some c :=
        substitute_eq_some_self c fun k hk => onlyAt_of_ne a (hnone k hk).1
      have hrest := ih (i := i + 1) hlt (by omega) fun d hd => hchild d (List.mem_cons_of_mem c hd)
      rw [substituteAll, substituteAll, hupdate, hc, hrest]
      show _ = substituteAll (onlyAt l a) m i (c :: substituteAll f m (i + 1) cs)
      rw [substituteAll, honly]
    · -- The child on the way is not removed, so what follows it keeps clear of `l`.
      have hkept : ∃ d, c.substitute f (m.child i) = some d :=
        ⟨_, substitute_of_none (hf.eq_none_of_contains hl)⟩
      obtain ⟨d, hd⟩ := hkept
      have hfirst := hchild c List.mem_cons_self
      rw [hd, Option.bind_some] at hfirst
      have hle := length_substituteAll_le f m (i + 1) cs
      have hrest := substituteAll_update_later (f := f) hj hl a (Nat.lt_succ_self i) cs (by omega)
      have hclear := substituteAll_update_later (f := fun _ => none) hj hl a (Nat.lt_succ_self i)
        (substituteAll f m (i + 1) cs) (by omega)
      have hself : substituteAll (fun _ => none) m (i + 1) (substituteAll f m (i + 1) cs)
          = substituteAll f m (i + 1) cs :=
        substituteAll_eq_self fun p _ => substitute_eq_some_self p.1 fun _ _ => rfl
      rw [substituteAll, substituteAll, hfirst, hd, hrest]
      show _ = substituteAll (onlyAt l a) m i (d :: substituteAll f m (i + 1) cs)
      rw [substituteAll]
      exact congrArg _ (hclear.trans hself).symm

/-- **One more action.** If all other actions come after `l`, the action at `l` can be carried out
    after them. -/
theorem substitute_update (hf : ActsAfter f l) (a : Option EditAction) {n : Node}
    (hn : n.Addressable) (hm : m.contains l = true) :
    n.substitute (Function.update f l a) m
      = (n.substitute f m).bind fun d => d.substitute (onlyAt l a) m := by
  induction n generalizing m with
  | node payload span cs ih =>
    by_cases hml : m = l
    · -- At `l` itself there is nothing else to carry out.
      subst hml
      have hnone : ∀ k, m.contains k = true → f k = none := fun k => hf.eq_none_of_contained
      rw [substitute_eq_some_self _ hnone, Option.bind_some]
      refine substitute_congr _ ?_
      intro k hk
      by_cases hkm : k = m
      · subst hkm
        rw [onlyAt, Function.update_self, Function.update_self]
      · rw [onlyAt_of_ne a hkm, Function.update_of_ne hkm]
        exact hnone k hk
    -- Above `l` nothing acts, and one child leads on to it.
    · obtain ⟨j, hj, hl⟩ :=
        Location.exists_child_contains (Location.isStrictAncestorOf_iff.mpr ⟨hm, hml⟩)
      have hfm : f m = none := hf.eq_none_of_contains hm
      have hum : Function.update f l a m = none := (Function.update_of_ne hml a f).trans hfm
      rw [substitute_of_none hum, substitute_of_none hfm, Option.bind_some,
        substitute_of_none (onlyAt_of_ne a hml)]
      have hcs := substituteAll_update hf hj hl a (Nat.zero_le j) cs
        (by rw [Nat.zero_add]; exact hn.children_length)
        (fun c hc => ih c hc (hn.of_mem (mem_parts_of_child hc (mem_parts_self c))) hl)
      exact congrArg (fun ds => some (Node.mk payload span ds)) hcs

end Node

/-! ### Queues without nested edits -/

/-- The action of an edit, if the edit is fresh. -/
def Edit.freshAction? (e : Edit) (tree : Node) : Option EditAction :=
  if e.IsFresh tree then some e.action else none

/-- Whether an edit is fresh depends on what stands at its location only. -/
theorem Edit.freshAction?_congr {e : Edit} {tree tree' : Node}
    (h : tree.get? e.location = tree'.get? e.location) :
    e.freshAction? tree = e.freshAction? tree' := by
  have hiff : e.IsFresh tree ↔ e.IsFresh tree' := by
    unfold Edit.IsFresh
    rw [h]
  unfold Edit.freshAction?
  simp only [hiff]

/-- Only the edits of a queue matter to its application. -/
theorem applyEdits_congr {q q' : EditQueue} (h : q.edits = q'.edits) (tree : Node) :
    applyEdits tree q = applyEdits tree q' := by
  have hresolve : q.resolve = q'.resolve := by
    unfold EditQueue.resolve
    rw [h]
  unfold applyEdits
  rw [hresolve]

section Queues

variable {tree : Node} {q rest : EditQueue} {e : Edit}

/-- The fresh actions of a queue with a further edit in front. -/
theorem EditQueue.freshAction_of_cons (h : q.edits = e :: rest.edits) (tree : Node) :
    q.freshAction tree
      = Function.update (rest.freshAction tree) e.location (e.freshAction? tree) := by
  funext m
  unfold freshAction get? Edit.freshAction?
  rw [h]
  by_cases hm : m = e.location
  · subst hm
    rw [List.find?_cons_of_pos (by simp), Function.update_self]
    rfl
  · rw [List.find?_cons_of_neg (by simpa using Ne.symm hm), Function.update_of_ne hm]

/-- In a queue without nested edits all others come after the first one, and none lies below it. -/
theorem EditQueue.Unnested.after_first (hq : q.Unnested) (h : q.edits = e :: rest.edits) {d : Edit}
    (hd : d ∈ rest.edits) : e.location < d.location ∧ e.location.contains d.location = false := by
  have hsorted := q.sorted
  rw [h] at hsorted
  have hlt : e.location < d.location := List.rel_of_pairwise_cons hsorted hd
  have hne : e.location ≠ d.location := fun heq => Location.lt_irrefl _ (heq ▸ hlt)
  have houtermost : e.location.isStrictAncestorOf d.location = false :=
    hq d (h ▸ List.mem_cons_of_mem e hd) e (h ▸ List.mem_cons_self)
  rw [Bool.eq_false_iff] at houtermost
  exact ⟨hlt, Bool.eq_false_iff.mpr fun hc =>
    houtermost (Location.isStrictAncestorOf_iff.mpr ⟨hc, hne⟩)⟩

/-- The actions of the later edits come after the location of the first one and not below it. -/
theorem EditQueue.Unnested.actsAfter (hq : q.Unnested) (h : q.edits = e :: rest.edits) :
    ActsAfter (rest.freshAction tree) e.location := by
  intro m hm
  cases hget : rest.get? m with
  | none => exact absurd (by rw [freshAction, hget]; rfl) hm
  | some d =>
    obtain ⟨hd, rfl⟩ := get?_eq_some_iff.mp hget
    exact hq.after_first h hd

/-- Without its first edit a queue has no nested edits either. -/
theorem EditQueue.Unnested.tail (hq : q.Unnested) (h : q.edits = e :: rest.edits) :
    rest.Unnested := by
  intro b hb a ha
  exact hq b (h ▸ List.mem_cons_of_mem e hb) a (h ▸ List.mem_cons_of_mem e ha)

/-- Without nested edits and without one at the root, application is the substitution of the fresh
    edits. -/
theorem EditQueue.Unnested.substitute_freshAction (hq : q.Unnested) (hreach : q.WithinReach tree)
    (hroot : q.get? Location.root = none) :
    tree.substitute (q.freshAction tree) Location.root = some (applyEdits tree q).tree := by
  have hkept : q.resolve.kept.edits = q.edits := by
    rw [EditQueue.kept_resolve, List.filter_eq_self]
    intro e he
    exact decide_eq_true (hq e he)
  have hreach' : q.resolve.kept.WithinReach tree := by
    intro e he
    exact hreach e (hkept ▸ he)
  have hfresh : q.resolve.kept.freshAction tree = q.freshAction tree := by
    funext m
    unfold EditQueue.freshAction EditQueue.get?
    rw [hkept]
  have hresult := result_rebuild_of_withinReach hreach' (Node.get?_root tree)
  have hnone : q.freshAction tree Location.root = none := by
    rw [EditQueue.freshAction, hroot]
    rfl
  rw [hfresh] at hresult
  rw [Node.substitute_of_none hnone] at hresult ⊢
  unfold applyEdits
  simp only [hresult]

/-- **The first edit last.** Applying a queue without nested edits is applying all edits but the
    first one, and then the first one by itself. -/
theorem EditQueue.Unnested.tree_applyEdits (hq : q.Unnested) (htree : tree.Addressable)
    (h : q.edits = e :: rest.edits) {single : EditQueue} (hsingle : single.edits = [e]) :
    (applyEdits tree q).tree = (applyEdits (applyEdits tree rest).tree single).tree := by
  have hlater : ActsAfter (rest.freshAction tree) e.location := hq.actsAfter h
  have hnotRoot : rest.get? Location.root = none := by
    rw [get?_eq_none_iff]
    intro d hd hroot
    exact Location.not_lt_of_contains (Location.root_contains e.location)
      (hroot ▸ (hq.after_first h hd).1)
  have hrest := (hq.tail h).substitute_freshAction (htree.withinReach rest) hnotRoot
  by_cases hroot : e.location = Location.root
  · -- Everything lies below the root, so the queue has no other edit.
    have hnil : rest.edits = [] := by
      rw [List.eq_nil_iff_forall_not_mem]
      intro d hd
      have hc := (hq.after_first h hd).2
      rw [hroot, Location.root_contains] at hc
      exact Bool.noConfusion hc
    have hsame : tree.substitute (rest.freshAction tree) Location.root = some tree := by
      refine Node.substitute_eq_some_self tree ?_
      intro m hm
      exact hlater.eq_none_of_contained (hroot ▸ hm)
    rw [hrest, Option.some.injEq] at hsame
    have hedits : q.edits = single.edits := by rw [h, hnil, hsingle]
    rw [hsame, applyEdits_congr hedits]
  · have hsingleUnnested : single.Unnested := by
      intro b hb a ha
      rw [hsingle, List.mem_singleton] at ha hb
      rw [ha, hb, Location.not_isStrictAncestorOf_self]
    have hreach : single.WithinReach (applyEdits tree rest).tree := by
      intro d hd l n hl hn
      rw [hsingle, List.mem_singleton] at hd
      exact Node.length_children_substitute_le hlater htree hrest
        (Location.contains_of_isStrictAncestorOf (hd ▸ hl)) hn
    have hsingleRoot : single.get? Location.root = none := by
      rw [get?_eq_none_iff, hsingle]
      intro d hd
      rw [List.mem_singleton.mp hd]
      exact hroot
    have hqRoot : q.get? Location.root = none := by
      unfold get? at hnotRoot ⊢
      rw [h, List.find?_cons_of_neg (by simpa using hroot)]
      exact hnotRoot
    have hall := hq.substitute_freshAction (htree.withinReach q) hqRoot
    have hlast := hsingleUnnested.substitute_freshAction hreach hsingleRoot
    -- The first edit is judged by the same node in the tree after the others.
    have hjudged : e.freshAction? (applyEdits tree rest).tree = e.freshAction? tree :=
      Edit.freshAction?_congr (Node.get?_substitute_self hlater hrest)
    have honly : single.freshAction (applyEdits tree rest).tree
        = Node.onlyAt e.location (e.freshAction? tree) := by
      have hcons : single.edits = e :: empty.edits := hsingle
      rw [freshAction_of_cons hcons, hjudged]
      rfl
    rw [freshAction_of_cons h,
      Node.substitute_update hlater _ htree (Location.root_contains e.location), hrest,
      Option.bind_some, ← honly, hlast, Option.some.injEq] at hall
    exact hall.symm

end Queues

/-- The edits of an ordered list without nested edits, applied together and one at a time. -/
theorem tree_applyEdits_ofList {tree : Node} (htree : tree.Addressable) {es : List Edit}
    (hsorted : es.Pairwise (·.location < ·.location))
    (hunnested : ∀ b ∈ es, ∀ a ∈ es, a.location.isStrictAncestorOf b.location = false) :
    (applyEdits tree (EditQueue.ofList es)).tree
      = es.foldr (fun e current => (applyEdits current (EditQueue.ofList [e])).tree) tree := by
  induction es with
  | nil =>
    obtain ⟨payload, span, cs⟩ := tree
    rfl
  | cons e es ih =>
    have hes := (List.pairwise_cons.mp hsorted).2
    have hrest := ih hes fun b hb a ha =>
      hunnested b (List.mem_cons_of_mem e hb) a (List.mem_cons_of_mem e ha)
    have hedits : (EditQueue.ofList (e :: es)).edits = e :: (EditQueue.ofList es).edits := by
      rw [EditQueue.edits_ofList hsorted, EditQueue.edits_ofList hes]
    have hq : (EditQueue.ofList (e :: es)).Unnested := by
      unfold EditQueue.Unnested EditQueue.IsOutermost
      rw [EditQueue.edits_ofList hsorted]
      exact hunnested
    rw [List.foldr_cons, ← hrest]
    exact hq.tree_applyEdits htree hedits (EditQueue.edits_ofList (List.pairwise_singleton _ e))

/-- **A batch is its edits one at a time.** For a tree whose nodes can all be addressed and a queue
    in which no edit lies below another one, whatever its edits do and whether or not they fit the
    tree: the queue gives the same tree, spans included, as its edits by themselves, each applied to
    what the ones before it left, from the last location to the first. -/
theorem applyEdits_eq_foldl (tree : Node) (q : EditQueue) (htree : tree.Addressable)
    (hq : q.Unnested) :
    (applyEdits tree q).tree
      = q.edits.reverse.foldl
          (fun current e => (applyEdits current (EditQueue.ofList [e])).tree) tree := by
  rw [List.foldl_reverse, ← tree_applyEdits_ofList htree q.sorted hq]
  rw [applyEdits_congr (EditQueue.edits_ofList q.sorted).symm]

/-- Edits of the sample next to each other: two removals that shift what comes after them, a
    replacement, an edit that is stale and one that addresses no node. -/
def siblingEdits : EditQueue :=
  ((((EditQueue.empty.push ⟨[0, 0]⟩ (.ofPayload (.text "a") []) .remove).push
    ⟨[0, 1]⟩ (.ofPayload (.text "b") []) (.replace (.ofPayload (.text "c") []))).push
    ⟨[1]⟩ (.ofPayload (.comment "") []) .remove).push
    ⟨[2]⟩ (.ofPayload (.text "head") []) .remove).push
    ⟨[3]⟩ (.ofPayload (.text "tail") []) .remove

/-- Five edits of which none lies below another, applied one by one from the last to the first. -/
theorem applyEdits_eq_foldl_siblings :
    sampleTree.Addressable ∧ siblingEdits.Unnested ∧
      siblingEdits.edits.reverse.foldl
          (fun current e => (applyEdits current (EditQueue.ofList [e])).tree) sampleTree
        = .ofPayload .document
            [.ofPayload (.element "ul" [] false) [.ofPayload (.text "c") []],
              .ofPayload (.text "tail") []] := by
  have hunnested : siblingEdits.Unnested := by
    unfold EditQueue.Unnested
    decide
  refine ⟨addressable_sampleTree, hunnested, ?_⟩
  rw [← applyEdits_eq_foldl sampleTree siblingEdits addressable_sampleTree hunnested]
  rfl

end TreeLint
