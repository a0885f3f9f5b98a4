import Mathlib
import TreeLint.Proofs.BuiltinPass
import TreeLint.Proofs.FixLoop

namespace TreeLint

/-!
# The fixed point of the built-in rules

With fixes on, the engine repeats the pass of the built-in rules until nothing changes. Two passes
reach the normal form and a third one finds it stable.

* `absorb_of_substitute` says what the engine makes of the edits of a pass.
* `Builtin.fixFrom_step` is one round of the fixing loop, and `Builtin.fixFrom_settles` the whole
  loop: it stops at the first iterate of `onePass` that `onePass` does not change.
* `Builtin.run_eq_normalize` is the result for the engine.
-/

/-- **What the edits of a pass come to.** If the edits fit the tree and turn it into `result`,
    the engine either stops, because `result` is the tree up to spans, or goes on with `result`. -/
theorem absorb_of_substitute (p : Progress) (pass : PassResult) {result : Node}
    (htree : p.tree.Addressable) (hedits : pass.edits.Anchored p.tree)
    (hresult : p.tree.substitute pass.edits.actionAt Location.root = some result) :
    (∃ p', Engine.absorb p pass = .settled p' ∧ p'.tree = p.tree ∧
        p'.iterations = p.iterations + 1 ∧ (result == p.tree) = true) ∨
      (∃ p', Engine.absorb p pass = .changed p' ∧ p'.tree = result ∧
        p'.iterations = p.iterations + 1 ∧ (result == p.tree) = false) := by
  have happlied := hedits.tree_applyEdits htree hresult
  rcases Engine.absorb_cases p pass with
    ⟨hstop, p', habsorb, htree', hiterations, -⟩ | ⟨hgo, p', habsorb, htree', hiterations, -⟩
  · refine .inl ⟨p', habsorb, htree', hiterations, ?_⟩
    rcases hstop with hempty | hunchanged | hequal
    · -- Without edits the substitution is the tree itself.
      have hsame : p.tree.substitute pass.edits.actionAt Location.root = some p.tree := by
        refine Node.substitute_eq_some_self p.tree fun m _ => ?_
        rw [EditQueue.actionAt, EditQueue.isEmpty_iff.mp hempty m]
        rfl
      rw [hsame, Option.some.injEq] at hresult
      exact hresult ▸ Node.beq_self p.tree
    · rw [← happlied, tree_applyEdits_of_not_changed htree hunchanged]
      exact Node.beq_self p.tree
    · exact happlied ▸ hequal
  · refine .inr ⟨p', habsorb, htree'.trans happlied, hiterations, ?_⟩
    exact Bool.eq_false_iff.mpr fun hequal => hgo (.inr (.inr (happlied ▸ hequal)))

namespace Builtin

/-- The trees that the engine can fix within a depth limit. -/
structure Fixable (maxDepth : Nat) (tree : Node) : Prop where
  regular : Regular tree
  depth : tree.height ≤ maxDepth
  root : isEmptyComment tree = false

/-- A pass keeps the tree fixable. -/
theorem Fixable.onePass {maxDepth : Nat} {tree : Node} (h : Fixable maxDepth tree) :
    Fixable maxDepth (onePass tree) where
  regular := by
    constructor
    · intro m hm
      obtain ⟨k, hk, rfl⟩ := exists_of_mem_parts_onePass hm
      exact (length_children_onePass k).trans (h.regular.addressable k hk)
    · intro m hm hkind
      obtain ⟨k, hk, rfl⟩ := exists_of_mem_parts_onePass hm
      rw [kind_onePass] at hkind
      have hlength := length_children_onePass k
      rw [h.regular.parameters k hk hkind] at hlength
      exact List.length_eq_zero_iff.mp (Nat.le_zero.mp hlength)
  depth := (height_onePass tree).trans h.depth
  root := (isEmptyComment_onePass tree).trans h.root

section Loop

variable {config : Config} {p : Progress}

/-- A pass of the engine over a fixable tree succeeds, and its edits come to `onePass`. -/
theorem runPass_onePass {tree : Node} (hfixes : Fixes (Engine.collector ⟨registry, config⟩))
    (htree : Fixable config.maxDepth tree) :
    ∃ pass, (Engine.runPass ⟨registry, config⟩ false tree).result = .ok pass ∧
      (Engine.runPass ⟨registry, config⟩ false tree).cancelled = false ∧
      pass.edits.Anchored tree ∧
      tree.substitute pass.edits.actionAt Location.root = some (onePass tree) := by
  obtain ⟨hresult, hcancelled, hedits⟩ :=
    traverse_onePass htree.regular htree.depth htree.root hfixes
  have hanchored := anchored_traverse registry config.maxDepth (Engine.collector ⟨registry, config⟩)
    htree.regular.addressable
  unfold Engine.runPass
  simp only [hresult, hcancelled]
  exact ⟨_, rfl, rfl, hanchored, hedits⟩

/-- **One round of the loop.** It stops if the tree is stable, and else goes on with the tree after
    the pass. -/
theorem fixFrom_step (hfixes : Fixes (Engine.collector ⟨registry, config⟩))
    (htree : Fixable config.maxDepth p.tree) (passes : Nat) (visits : Array Visit) :
    (∃ o, (Engine.fixFrom ⟨registry, config⟩ (passes + 1) false visits p).result = .ok o ∧
        o.converged = true ∧ o.tree = p.tree ∧ o.iterations = p.iterations + 1 ∧
        onePass p.tree = p.tree) ∨
      (∃ visits' p', Engine.fixFrom ⟨registry, config⟩ (passes + 1) false visits p
          = Engine.fixFrom ⟨registry, config⟩ passes false visits' p' ∧
        p'.tree = onePass p.tree ∧ p'.iterations = p.iterations + 1 ∧ onePass p.tree ≠ p.tree) := by
  obtain ⟨pass, hresult, hcancelled, hanchored, hedits⟩ := runPass_onePass hfixes htree
  rw [Engine.fixFrom, if_neg Bool.false_ne_true]
  simp only [hresult, hcancelled]
  rcases absorb_of_substitute p pass htree.regular.addressable hanchored hedits with
    ⟨p', habsorb, htree', hiterations, hequal⟩ | ⟨p', habsorb, htree', hiterations, hdiffer⟩
  · rw [habsorb]
    exact .inl ⟨_, rfl, rfl, htree', hiterations, onePass_eq_of_beq hequal⟩
  · rw [habsorb]
    refine .inr ⟨_, p', rfl, htree', hiterations, fun hsame => ?_⟩
    rw [hsame, Node.beq_self] at hdiffer
    exact Bool.noConfusion hdiffer

/-- **The whole loop.** With more than `k` passes left it stops at the tree after `k` passes, if
    that one is stable. -/
theorem fixFrom_settles (hfixes : Fixes (Engine.collector ⟨registry, config⟩)) {k passes : Nat}
    (hk : k < passes) (htree : Fixable config.maxDepth p.tree)
    (hstable : onePass (onePass^[k] p.tree) = onePass^[k] p.tree) (visits : Array Visit) :
    ∃ o, (Engine.fixFrom ⟨registry, config⟩ passes false visits p).result = .ok o ∧
      o.converged = true ∧ o.iterations ≤ p.iterations + k + 1 ∧ o.tree = onePass^[k] p.tree := by
  induction k generalizing passes visits p with
  | zero =>
    obtain ⟨passes, rfl⟩ := Nat.exists_eq_succ_of_ne_zero (Nat.ne_zero_of_lt hk)
    rcases fixFrom_step hfixes htree passes visits with
      ⟨o, hresult, hconverged, htree', hiterations, -⟩ | ⟨_, _, _, _, _, hchanged⟩
    · exact ⟨o, hresult, hconverged, hiterations.le, htree'⟩
    · exact absurd hstable hchanged
  | succ k ih =>
    obtain ⟨passes, rfl⟩ := Nat.exists_eq_succ_of_ne_zero (Nat.ne_zero_of_lt hk)
    rcases fixFrom_step hfixes htree passes visits with
      ⟨o, hresult, hconverged, htree', hiterations, hfixed⟩ |
        ⟨visits', p', hround, htree', hiterations, -⟩
    · -- The tree was stable before, and more passes would not have changed it.
      refine ⟨o, hresult, hconverged, by omega, ?_⟩
      rw [htree', Function.iterate_fixed hfixed]
    · rw [Function.iterate_succ_apply, ← htree'] at hstable ⊢
      obtain ⟨o, hresult, hconverged, hle, htree''⟩ :=
        ih (by omega : k < passes) (htree' ▸ htree.onePass) hstable visits'
      rw [hround]
      exact ⟨o, hresult, hconverged, by omega, htree''⟩

end Loop

/-- With fixes on and the categories of all rules enabled, all fixes are made. -/
theorem fixes_collector {config : Config} (hfix : config.applyFixes = true)
    (henabled : ∀ r ∈ rules, config.isCategoryEnabled r.category.id = true) :
    Fixes (Engine.collector ⟨registry, config⟩) := by
  intro r hr
  have hmode : (Engine.collector ⟨registry, config⟩).mode = .applyFixes := if_pos hfix
  have hcategory : (Engine.collector ⟨registry, config⟩).isEnabled r.category = true := by
    show (config.enabledCategories.map (·.map Category.mk)).all (·.contains r.category) = true
    have hr := henabled r hr
    unfold Config.isCategoryEnabled at hr
    cases hlist : config.enabledCategories with
    | none => rfl
    | some ids =>
      rw [hlist, Option.all_some, List.contains_iff_mem] at hr
      rw [Option.map_some, Option.all_some, List.contains_iff_mem]
      exact List.mem_map.mpr ⟨r.category.id, hr, rfl⟩
  unfold Collector.applies
  rw [hcategory, hmode]
  rfl

/-- **The engine computes the normal form.** With fixes on, all categories enabled, at least three
    passes allowed and no cancellation, the run of a tree within the depth limit succeeds. It
    converges in at most three passes, and the tree that it leaves is the normal form, spans
    included. The nodes of the tree must be addressable, its type parameters have no children, and
    the root must not be an empty comment. -/
theorem run_eq_normalize (config : Config) (tree : Node) (hfix : config.applyFixes = true)
    (henabled : ∀ r ∈ rules, config.isCategoryEnabled r.category.id = true)
    (hcap : 3 ≤ config.fixIterationCap) (hdepth : tree.height ≤ config.maxDepth)
    (hparameters : ∀ m ∈ tree.parts, m.kind = .typeParameter → m.children = [])
    (haddressable : tree.Addressable) (hroot : isEmptyComment tree = false) :
    ∃ o, (Engine.run ⟨registry, config⟩ false tree).result = .ok o ∧ o.converged = true ∧
      o.iterations ≤ 3 ∧ o.tree = normalize tree := by
  have htree : Fixable config.maxDepth tree := ⟨⟨haddressable, hparameters⟩, hdepth, hroot⟩
  have htwo : onePass^[2] tree = normalize tree := onePass_onePass tree
  have hstable : onePass (onePass^[2] tree) = onePass^[2] tree := by
    rw [htwo, onePass_normalize]
  have hloop := fixFrom_settles (p := Progress.start tree) (fixes_collector hfix henabled)
    (show 2 < config.fixIterationCap by omega) htree hstable #[]
  obtain ⟨o, hresult, hconverged, hiterations, htree'⟩ := hloop
  refine ⟨o, ?_, hconverged, hiterations, htree'.trans htwo⟩
  unfold Engine.run
  rw [if_pos hfix]
  exact hresult

/-- A page with something for every rule: an element that holds only an empty comment, a constraint
    that every type meets, and a property declared twice. -/
def untidyTree : Node :=
  .ofPayload .document
    [.ofPayload (.element "div" [] false) [.ofPayload (.comment " ") []],
      .ofPayload (.interface "I")
        [.ofPayload .typeParameterList [.ofPayload (.typeParameter "T" (some "any") none) []],
          .ofPayload .interfaceBody
            [.ofPayload (.propertySignature "a" false false none) [],
              .ofPayload (.comment "") [],
              .ofPayload (.propertySignature "a" true false none) []]]]

/-- Its normal form. -/
def tidyTree : Node :=
  .ofPayload .document
    [.ofPayload (.element "div" [] true) [],
      .ofPayload (.interface "I")
        [.ofPayload .typeParameterList [.ofPayload (.typeParameter "T" none none) []],
          .ofPayload .interfaceBody [.ofPayload (.propertySignature "a" false false none) []]]]

theorem run_untidyTree :
    ∃ o, (Engine.run ⟨registry, { applyFixes := true, fixIterationCap := 3 }⟩ false
        untidyTree).result = .ok o ∧ o.converged = true ∧ o.iterations ≤ 3 ∧ o.tree = tidyTree := by
  have hnormal : tidyTree = normalize untidyTree := by rfl
  rw [hnormal]
  exact run_eq_normalize { applyFixes := true, fixIterationCap := 3 } untidyTree rfl
    (fun _ _ => rfl) le_rfl (by decide) (by decide) (by unfold Node.Addressable; decide)
    (by decide)

end Builtin

end TreeLint
