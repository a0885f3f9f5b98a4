import Mathlib
import TreeLint.Proofs.Application

namespace TreeLint

/-!
# What becomes of a fix

The status of a fix is read off four lists: the edits that were made, those that were stale, the
conflicts, and the edits that a replacement further out absorbed.

* `EditQueue.Governs`: the edit that decides about a location is the kept edit there, or the kept
  edit that absorbed the one there. A location with an edit has exactly one of these or is the loser
  of a conflict (`placement`, `Governs.unique`, `Governs.not_discarded`).
* `mem_lists_of_kept`: a kept edit was made, was stale, or addresses no node.
* `statusOf_of_governs`, `statusOf_of_discarded` and `statusOf_of_none` compute the status in the
  three cases.
* `IsFate` says what the status has to tell, `statusOf_isFate` that it does. A fix that counts as
  applied is part of the new tree (`holds_of_applied`).
-/

namespace EditQueue

variable {q : EditQueue} {g g' e : Edit} {l : Location}

/-! ### The edit that decides -/

/-- `g` decides about the location `l`: it is the kept edit there, or the kept edit that absorbed
    the edit there. -/
def Governs (q : EditQueue) (g : Edit) (l : Location) : Prop :=
  g ∈ q.resolve.kept.edits ∧ (g.location = l ∨ (l, g.location) ∈ q.resolve.absorbed)

/-- Some conflict was lost by the edit at `l`. -/
def Discards (q : EditQueue) (l : Location) : Prop := ∃ c ∈ q.resolve.conflicts, c.discarded = l

theorem governs_of_kept (hg : g ∈ q.resolve.kept.edits) : q.Governs g g.location := ⟨hg, .inl rfl⟩

/-- No edit lies above a kept one, so a kept edit is not absorbed as well. -/
theorem not_mem_absorbed_of_kept (hg : g ∈ q.resolve.kept.edits) (m : Location) :
    (g.location, m) ∉ q.resolve.absorbed := by
  intro hmem
  obtain ⟨e, -, o, ho, hoe, -, heq⟩ := mem_absorbed_resolve.mp hmem
  simp only [Prod.mk.injEq] at heq
  have houter := (mem_kept_resolve.mp hg).2 o (mem_kept_resolve.mp ho).1
  rw [heq.1, hoe] at houter
  exact Bool.noConfusion houter

/-- Exactly one edit decides about a location. -/
theorem Governs.unique (h : q.Governs g l) (h' : q.Governs g' l) : g = g' := by
  obtain ⟨hg, hgl⟩ := h
  obtain ⟨hg', hgl'⟩ := h'
  rcases hgl with rfl | hgl <;> rcases hgl' with hloc | hgl'
  · exact List.inj_on_of_nodup_map q.resolve.kept.nodup_locations hg hg' hloc.symm
  · exact absurd hgl' (not_mem_absorbed_of_kept hg _)
  · subst hloc
    exact absurd hgl (not_mem_absorbed_of_kept hg' _)
  · -- Both lie above the location, and no kept edit lies above another.
    obtain ⟨e, -, o, ho, hoe, -, heq⟩ := mem_absorbed_resolve.mp hgl
    obtain ⟨e', -, o', ho', hoe', -, heq'⟩ := mem_absorbed_resolve.mp hgl'
    simp only [Prod.mk.injEq] at heq heq'
    have hmem := mem_kept_resolve.mp hg
    have hmem' := mem_kept_resolve.mp hg'
    refine outermost_above_unique (l := l) hmem.1 hmem'.1 ?_ ?_ hmem.2 hmem'.2
    · rw [heq.1, heq.2]
      exact hoe
    · rw [heq'.1, heq'.2]
      exact hoe'

/-- An edit that lost a conflict is decided about by no other. -/
theorem Governs.not_discarded (h : q.Governs g l) : ¬ q.Discards l := by
  rintro ⟨c, hc, rfl⟩
  obtain ⟨e, he, o, ho, hoe, hnot, rfl⟩ := mem_conflicts_resolve.mp hc
  obtain ⟨hg, hloc | habsorbed⟩ := h
  · have houter := (mem_kept_resolve.mp hg).2 o (mem_kept_resolve.mp ho).1
    rw [hloc, hoe] at houter
    exact Bool.noConfusion houter
  · obtain ⟨e', he', o', ho', hoe', hcarried, heq⟩ := mem_absorbed_resolve.mp habsorbed
    simp only [Prod.mk.injEq] at heq
    have hsame : e' = e := List.inj_on_of_nodup_map q.nodup_locations he' he heq.1.symm
    subst hsame
    have hmem := mem_kept_resolve.mp ho
    have hmem' := mem_kept_resolve.mp ho'
    exact hnot (outermost_above_unique hmem'.1 hmem.1 hoe' hoe hmem'.2 hmem.2 ▸ hcarried)

/-- Only where an edit is queued is there something to decide. -/
theorem Governs.isSome (h : q.Governs g l) : (q.get? l).isSome = true := by
  obtain ⟨hg, rfl | habsorbed⟩ := h
  · rw [mem_edits_iff.mp (mem_kept_resolve.mp hg).1]
    rfl
  · obtain ⟨e, he, o, -, -, -, heq⟩ := mem_absorbed_resolve.mp habsorbed
    simp only [Prod.mk.injEq] at heq
    rw [heq.1, mem_edits_iff.mp he]
    rfl

theorem Discards.isSome (h : q.Discards l) : (q.get? l).isSome = true := by
  obtain ⟨c, hc, rfl⟩ := h
  obtain ⟨e, he, o, -, -, -, rfl⟩ := mem_conflicts_resolve.mp hc
  rw [mem_edits_iff.mp he]
  rfl

/-- **A place for every edit.** An edit is kept or absorbed, and then some edit decides about its
    location, or it has lost a conflict. -/
theorem placement (h : q.get? l = some e) : (∃ g, q.Governs g l) ∨ q.Discards l := by
  obtain ⟨he, rfl⟩ := get?_eq_some_iff.mp h
  by_cases hout : q.IsOutermost e.location
  · exact .inl ⟨e, governs_of_kept (mem_kept_resolve.mpr ⟨he, hout⟩)⟩
  · obtain ⟨o, ho, hoe, hoo⟩ := exists_outermost_above hout
    have hkept := mem_kept_resolve.mpr ⟨ho, hoo⟩
    by_cases hcarried : e.IsCarriedBy o
    · exact .inl ⟨o, hkept, .inr (mem_absorbed_resolve.mpr ⟨e, he, o, hkept, hoe, hcarried, rfl⟩)⟩
    · exact .inr ⟨_, mem_conflicts_resolve.mpr ⟨e, he, o, hkept, hoe, hcarried, rfl⟩, rfl⟩

end EditQueue

section Status

variable {tree : Node} {q : EditQueue} {g : Edit} {l : Location} {d : Diagnostic}

/-! ### Made, stale or without a node -/

/-- Only kept edits are made or noted as stale. -/
theorem exists_kept_of_mem (htree : tree.Addressable)
    (h : l ∈ (applyEdits tree q).applied ∨ l ∈ (applyEdits tree q).stale) :
    ∃ g ∈ q.resolve.kept.edits, g.location = l := by
  by_cases hroot : q.RemovesRoot tree
  · rw [applyEdits_of_removesRoot htree hroot] at h
    obtain ⟨e, he, -⟩ := hroot
    obtain ⟨hmem, hloc⟩ := EditQueue.get?_eq_some_iff.mp he
    refine ⟨e, EditQueue.mem_kept_resolve.mpr ⟨hmem, hloc ▸ q.isOutermost_root⟩, ?_⟩
    rcases h with h | h
    · exact absurd h List.not_mem_nil
    · exact hloc.trans (List.mem_singleton.mp h).symm
  · rcases h with h | h
    · obtain ⟨e, he, rfl, hout, -⟩ := (mem_applied_applyEdits htree hroot l).mp h
      exact ⟨e, EditQueue.mem_kept_resolve.mpr ⟨he, hout⟩, rfl⟩
    · obtain ⟨e, he, rfl, hout, -⟩ := (mem_stale_applyEdits htree hroot l).mp h
      exact ⟨e, EditQueue.mem_kept_resolve.mpr ⟨he, hout⟩, rfl⟩

/-- Where no edit decides, none is made or noted as stale. -/
theorem not_mem_of_not_governs (htree : tree.Addressable) (h : ∀ g, ¬ q.Governs g l) :
    l ∉ (applyEdits tree q).applied ∧ l ∉ (applyEdits tree q).stale := by
  rw [← not_or]
  intro hmem
  obtain ⟨g, hg, hloc⟩ := exists_kept_of_mem htree hmem
  exact h g ⟨hg, .inl hloc⟩

/-- When the root is to be removed, that is the only edit that is kept. -/
theorem location_eq_root_of_removesRoot (h : q.RemovesRoot tree)
    (hg : g ∈ q.resolve.kept.edits) : g.location = Location.root := by
  obtain ⟨e, he, -⟩ := h
  obtain ⟨hmem, hloc⟩ := EditQueue.get?_eq_some_iff.mp he
  by_contra hne
  have hstrict := Location.isStrictAncestorOf_iff.mpr
    ⟨Location.root_contains g.location, Ne.symm hne⟩
  have hout := (EditQueue.mem_kept_resolve.mp hg).2 e hmem
  rw [hloc, hstrict] at hout
  exact Bool.noConfusion hout

/-- **The three ends of a kept edit.** It is not both made and stale, and it is neither exactly if
    it addresses no node. -/
theorem mem_lists_of_kept (htree : tree.Addressable) (hg : g ∈ q.resolve.kept.edits) :
    ¬ (g.location ∈ (applyEdits tree q).applied ∧ g.location ∈ (applyEdits tree q).stale) ∧
      (tree.get? g.location = none ↔
        g.location ∉ (applyEdits tree q).applied ∧ g.location ∉ (applyEdits tree q).stale) := by
  by_cases hroot : q.RemovesRoot tree
  · rw [applyEdits_of_removesRoot htree hroot, location_eq_root_of_removesRoot hroot hg]
    simp
  · obtain ⟨hmem, hout⟩ := EditQueue.mem_kept_resolve.mp hg
    -- No two edits share a location, so it is this edit that is applied or stale.
    have happlied : g.location ∈ (applyEdits tree q).applied ↔ g.IsFresh tree := by
      rw [mem_applied_applyEdits htree hroot]
      constructor
      · rintro ⟨e, he, hloc, -, hfresh⟩
        exact List.inj_on_of_nodup_map q.nodup_locations he hmem hloc ▸ hfresh
      · exact fun hfresh => ⟨g, hmem, rfl, hout, hfresh⟩
    have hstale : g.location ∈ (applyEdits tree q).stale ↔ g.IsStale tree := by
      rw [mem_stale_applyEdits htree hroot]
      constructor
      · rintro ⟨e, he, hloc, -, hstale⟩
        exact List.inj_on_of_nodup_map q.nodup_locations he hmem hloc ▸ hstale
      · exact fun hstale => ⟨g, hmem, rfl, hout, hstale⟩
    rw [happlied, hstale]
    cases hn : tree.get? g.location with
    | none => simp [Edit.IsFresh, Edit.IsStale, hn]
    | some n =>
      rw [Edit.isFresh_iff_of_get? hn, Edit.isStale_iff_of_get? hn]
      by_cases hfound : (g.found == n) = true
      · simp [hfound]
      · simp [hfound]

/-! ### The status in each case -/

/-- What was absorbed is looked up under the location of the deciding edit. -/
theorem governing_of_governs (h : q.Governs g l) :
    (applyEdits tree q).governing l = g.location := by
  unfold Applied.governing
  rw [(resolution_applyEdits tree q).2]
  cases hlookup : q.resolve.absorbed.lookup l with
  | none =>
    rw [List.lookup_eq_none_iff] at hlookup
    rcases h.2 with rfl | habsorbed
    · rfl
    · exact absurd (hlookup _ habsorbed) (by simp)
  | some m =>
    obtain ⟨as, bs, hsplit, -⟩ := List.lookup_eq_some_iff.mp hlookup
    have hmem : (l, m) ∈ q.resolve.absorbed := by
      rw [hsplit]
      simp
    obtain ⟨e, he, o, ho, hoe, hcarried, heq⟩ := EditQueue.mem_absorbed_resolve.mp hmem
    simp only [Prod.mk.injEq] at heq
    have hgoverns : q.Governs o l := ⟨ho, .inr (heq.2 ▸ hmem)⟩
    rw [h.unique hgoverns]
    exact heq.2

/-- Where no edit decides, a location stands for itself. -/
theorem governing_of_not_governs (h : ∀ g, ¬ q.Governs g l) :
    (applyEdits tree q).governing l = l := by
  unfold Applied.governing
  rw [(resolution_applyEdits tree q).2]
  have hnone : q.resolve.absorbed.lookup l = none := by
    rw [List.lookup_eq_none_iff]
    intro p hp
    obtain ⟨e, he, o, ho, -, -, rfl⟩ := EditQueue.mem_absorbed_resolve.mp hp
    have hne : l ≠ e.location := by
      rintro rfl
      exact h o ⟨ho, .inr hp⟩
    simpa using hne
  rw [hnone]
  rfl

theorem exists_discarded_iff :
    (∃ c ∈ (applyEdits tree q).conflicts, c.discarded = l) ↔ q.Discards l := by
  rw [(resolution_applyEdits tree q).1]
  rfl

theorem any_discarded_iff :
    (applyEdits tree q).conflicts.any (·.discarded = l) = true ↔ q.Discards l := by
  simp only [List.any_eq_true, decide_eq_true_eq]
  exact exists_discarded_iff

/-- A fix whose edit was kept or absorbed shares the fate of the deciding edit. -/
theorem statusOf_of_governs (hfix : d.hasFix = true) (h : q.Governs g d.location.node) :
    (applyEdits tree q).statusOf d
      = if g.location ∈ (applyEdits tree q).applied then .applied
        else if g.location ∈ (applyEdits tree q).stale then .skipped else .available := by
  have hdiscards := (EditQueue.governs_of_kept h.1).not_discarded
  unfold Applied.statusOf
  simp only [hfix, if_true, governing_of_governs h, List.contains_eq_mem, decide_eq_true_eq,
    any_discarded_iff, hdiscards, if_false]

/-- A fix whose edit lost a conflict is superseded. -/
theorem statusOf_of_discarded (htree : tree.Addressable) (hfix : d.hasFix = true)
    (h : q.Discards d.location.node) : (applyEdits tree q).statusOf d = .superseded := by
  have hnot : ∀ g, ¬ q.Governs g d.location.node := fun g hg => hg.not_discarded h
  have hlists := not_mem_of_not_governs htree hnot
  unfold Applied.statusOf
  simp only [hfix, if_true, governing_of_not_governs hnot, List.contains_eq_mem, decide_eq_true_eq,
    hlists, any_discarded_iff, h, if_false]

/-- A fix without an edit is still available. -/
theorem statusOf_of_none (htree : tree.Addressable) (hfix : d.hasFix = true)
    (h : q.get? d.location.node = none) : (applyEdits tree q).statusOf d = .available := by
  have hnone : ¬ (q.get? d.location.node).isSome = true := by simp [h]
  have hnot : ∀ g, ¬ q.Governs g d.location.node := fun g hg => hnone hg.isSome
  have hdiscards : ¬ q.Discards d.location.node := fun hd => hnone hd.isSome
  have hlists := not_mem_of_not_governs htree hnot
  unfold Applied.statusOf
  simp only [hfix, if_true, governing_of_not_governs hnot, List.contains_eq_mem, decide_eq_true_eq,
    hlists, any_discarded_iff, hdiscards, if_false]

/-! ### Fixes that were made show -/

/-- A replacement that was made is part of the new tree. -/
theorem mem_parts_of_applied (htree : tree.Addressable) (hg : g ∈ q.resolve.kept.edits)
    (happlied : g.location ∈ (applyEdits tree q).applied) {node : Node}
    (hnode : g.action = .replace node) : node ∈ (applyEdits tree q).tree.parts := by
  by_cases hroot : q.RemovesRoot tree
  · rw [applyEdits_of_removesRoot htree hroot] at happlied
    exact absurd happlied List.not_mem_nil
  · have hkept := EditQueue.mem_edits_iff.mp hg
    obtain ⟨e, he, hloc, -, hfresh⟩ := (mem_applied_applyEdits htree hroot _).mp happlied
    obtain rfl : e = g := List.inj_on_of_nodup_map q.nodup_locations he
      (EditQueue.mem_kept_resolve.mp hg).1 hloc
    have haction : q.resolve.kept.freshAction tree e.location = some (.replace node) := by
      simp [EditQueue.freshAction, hkept, hfresh, hnode]
    obtain ⟨x, hx, -⟩ := hfresh
    refine Node.mem_parts_substitute (l := Location.root) hx haction ?_
      (substitute_freshAction_kept htree hroot)
    -- Kept edits are not nested, so there is no action further out.
    intro a _ ha
    have hnone : q.resolve.kept.get? a = none := by
      rw [EditQueue.get?_eq_none_iff]
      rintro o ho rfl
      exact Bool.noConfusion ((q.unnested_kept_resolve e hg o ho).symm.trans ha)
    simp [EditQueue.freshAction, hnone]

/-- **A fix that counts as applied shows.** Its replacement, or one that is structurally equal to
    it, is part of the new tree. -/
theorem holds_of_applied (htree : tree.Addressable) (h : q.Governs g l)
    (happlied : g.location ∈ (applyEdits tree q).applied) {e : Edit} {fixed : Node}
    (he : q.get? l = some e) (hfixed : e.action = .replace fixed) :
    (applyEdits tree q).tree.holds fixed = true := by
  obtain ⟨hmem, hloc⟩ := EditQueue.get?_eq_some_iff.mp he
  rw [Node.holds_iff]
  obtain ⟨hg, hgl | habsorbed⟩ := h
  · obtain rfl : g = e := List.inj_on_of_nodup_map q.nodup_locations
      (EditQueue.mem_kept_resolve.mp hg).1 hmem (hgl.trans hloc.symm)
    exact ⟨fixed, mem_parts_of_applied htree hg happlied hfixed, Node.beq_self fixed⟩
  · -- The replacement further out is part of the tree, and the fix is part of that replacement.
    obtain ⟨e', he', o, ho, -, hcarried, heq⟩ := EditQueue.mem_absorbed_resolve.mp habsorbed
    simp only [Prod.mk.injEq] at heq
    obtain rfl : e' = e := List.inj_on_of_nodup_map q.nodup_locations he' hmem
      (heq.1.symm.trans hloc.symm)
    obtain rfl : g = o := List.inj_on_of_nodup_map q.resolve.kept.nodup_locations hg ho heq.2
    obtain ⟨node, hnode, -, hremove | ⟨fixed', hfixed', m, hm, hsame⟩⟩ := hcarried
    · rw [hremove] at hfixed
      exact EditAction.noConfusion hfixed
    · rw [hfixed, EditAction.replace.injEq] at hfixed'
      subst hfixed'
      exact ⟨m, Node.mem_parts_trans hm (mem_parts_of_applied htree hg happlied hnode), hsame⟩

/-! ### The status tells the truth -/

/-- What the status of a fix for the location `l` has to tell about the edits of `q` that were
    applied to `tree`. -/
structure IsFate (tree : Node) (q : EditQueue) (l : Location) (status : FixStatus) : Prop where
  /-- An edit of an enclosing node won. -/
  superseded_iff : status = .superseded ↔ ∃ c ∈ (applyEdits tree q).conflicts, c.discarded = l
  /-- The edit that decides was made. -/
  applied_iff : status = .applied ↔
    ∃ g, q.Governs g l ∧ g.location ∈ (applyEdits tree q).applied
  /-- The edit that decides was stale, or the removal of the root. -/
  skipped_iff : status = .skipped ↔ ∃ g, q.Governs g l ∧ g.location ∈ (applyEdits tree q).stale
  /-- There is no edit, or the edit that decides addresses no node. -/
  available_iff : status = .available ↔
    q.get? l = none ∨ ∃ g, q.Governs g l ∧ tree.get? g.location = none
  /-- One of these is the case. -/
  decided : status ≠ .none
  /-- A replacement that counts as applied is found in the new tree. -/
  shown : status = .applied → ∀ e fixed, q.get? l = some e → e.action = .replace fixed →
    (applyEdits tree q).tree.holds fixed = true

/-- Where an edit decides, the three ends of that edit are the three ends of the fix. -/
theorem isFate_of_governs (htree : tree.Addressable) (hfix : d.hasFix = true)
    (hg : q.Governs g d.location.node) :
    IsFate tree q d.location.node ((applyEdits tree q).statusOf d) := by
  -- What is said of the deciding edit is said of `g`.
  have honly : ∀ P : Edit → Prop, (∃ g', q.Governs g' d.location.node ∧ P g') ↔ P g :=
    fun P => ⟨fun ⟨g', hg', hP⟩ => hg.unique hg' ▸ hP, fun hP => ⟨g, hg, hP⟩⟩
  have hsome : q.get? d.location.node ≠ none := Option.isSome_iff_ne_none.mp hg.isSome
  obtain ⟨hboth, hneither⟩ := mem_lists_of_kept htree hg.1
  rw [statusOf_of_governs hfix hg]
  refine { superseded_iff := ?_, applied_iff := ?_, skipped_iff := ?_, available_iff := ?_,
           decided := ?_, shown := ?_ }
  · rw [exists_discarded_iff]
    split_ifs <;> simp [hg.not_discarded]
  · rw [honly fun g => g.location ∈ (applyEdits tree q).applied]
    split_ifs with happlied hstale <;> simp [happlied]
  · rw [honly fun g => g.location ∈ (applyEdits tree q).stale]
    split_ifs with happlied hstale
    · simpa using fun hstale => hboth ⟨happlied, hstale⟩
    · simp [hstale]
    · simp [hstale]
  · rw [honly fun g => tree.get? g.location = none, hneither]
    split_ifs with happlied hstale
    · simp [happlied, hsome]
    · simp [hstale, hsome]
    · simp [happlied, hstale]
  · split_ifs <;> simp
  · intro hstatus e fixed he hfixed
    refine holds_of_applied htree hg ?_ he hfixed
    by_contra happlied
    rw [if_neg happlied] at hstatus
    split_ifs at hstatus

/-- Where no edit decides, the fix has lost a conflict or was never queued. -/
theorem isFate_of_not_governs (htree : tree.Addressable) (hfix : d.hasFix = true)
    (hnot : ∀ g, ¬ q.Governs g d.location.node) :
    IsFate tree q d.location.node ((applyEdits tree q).statusOf d) := by
  -- No kept edit decides about the location: its own edit was lost, or there is none.
  by_cases hdiscards : q.Discards d.location.node
  · have hsome : q.get? d.location.node ≠ none := Option.isSome_iff_ne_none.mp hdiscards.isSome
    rw [statusOf_of_discarded htree hfix hdiscards]
    refine { superseded_iff := ?_, applied_iff := ?_, skipped_iff := ?_, available_iff := ?_,
             decided := ?_, shown := ?_ }
    · simp [exists_discarded_iff, hdiscards]
    · simp [hnot]
    · simp [hnot]
    · simp [hnot, hsome]
    · simp
    · simp
  · have hnone : q.get? d.location.node = none := by
      rw [Option.eq_none_iff_forall_ne_some]
      intro e he
      rcases EditQueue.placement he with ⟨g, hg⟩ | hlost
      · exact hnot g hg
      · exact hdiscards hlost
    rw [statusOf_of_none htree hfix hnone]
    refine { superseded_iff := ?_, applied_iff := ?_, skipped_iff := ?_, available_iff := ?_,
             decided := ?_, shown := ?_ }
    · simp [exists_discarded_iff, hdiscards]
    · simp [hnot]
    · simp [hnot]
    · simp [hnone]
    · simp
    · simp

/-- **The status of a fix tells the truth.** For every tree whose nodes can be addressed, every
    queue and every diagnostic with a fix: exactly one of the four things that can have become of
    the fix is the case, and the status says which. -/
theorem statusOf_isFate (tree : Node) (q : EditQueue) (htree : tree.Addressable) (d : Diagnostic)
    (hfix : d.hasFix = true) :
    IsFate tree q d.location.node ((applyEdits tree q).statusOf d) := by
  by_cases hgoverns : ∃ g, q.Governs g d.location.node
  · obtain ⟨g, hg⟩ := hgoverns
    exact isFate_of_governs htree hfix hg
  · rw [not_exists] at hgoverns
    exact isFate_of_not_governs htree hfix hgoverns

end Status

/-- Edits of the sample: the list is replaced after its first item and before its second one, so
    that it absorbs the first of these edits and not the second. A further edit is stale, and one
    addresses no node. -/
def nestedEdits : EditQueue :=
  ((((EditQueue.empty.push ⟨[0, 0]⟩ (.ofPayload (.text "a") [])
      (.replace (.ofPayload (.text "A") []))).push
    ⟨[0]⟩ (.ofPayload (.element "ul" [] false)
        [.ofPayload (.text "a") [], .ofPayload (.text "b") []])
      (.replace (.ofPayload (.element "ol" [] false)
        [.ofPayload (.text "A") [], .ofPayload (.text "b") []]))).push
    ⟨[0, 1]⟩ (.ofPayload (.text "b") []) (.replace (.ofPayload (.text "B") []))).push
    ⟨[2]⟩ (.ofPayload (.text "head") []) .remove).push
    ⟨[7]⟩ (.ofPayload (.text "") []) .remove

/-- A diagnostic about the node at `l` that comes with a removal. -/
def removable (l : Location) : Diagnostic :=
  .ofFix ⟨"SAMPLE"⟩ ⟨.zero, l⟩ ⟨"sample"⟩ .removal

/-- Every status occurs in the sample, and the replacement that was absorbed is in the new tree. -/
theorem statusOf_isFate_sample :
    sampleTree.Addressable ∧ (removable ⟨[0, 0]⟩).hasFix = true ∧
      ([⟨[0]⟩, ⟨[0, 0]⟩, ⟨[0, 1]⟩, ⟨[1]⟩, ⟨[2]⟩, ⟨[7]⟩].map fun l =>
          (applyEdits sampleTree nestedEdits).statusOf (removable l))
        = [.applied, .applied, .superseded, .available, .skipped, .available] ∧
      (applyEdits sampleTree nestedEdits).tree.holds (.ofPayload (.text "A") []) = true ∧
      IsFate sampleTree nestedEdits ⟨[0, 0]⟩
        ((applyEdits sampleTree nestedEdits).statusOf (removable ⟨[0, 0]⟩)) :=
  ⟨addressable_sampleTree, by decide, by decide, by decide,
    statusOf_isFate sampleTree nestedEdits addressable_sampleTree (removable ⟨[0, 0]⟩) (by decide)⟩

end TreeLint
