import Mathlib
import TreeLint.Layout.Formatter
import TreeLint.Proofs.BareWalk
import TreeLint.Proofs.Remark
import TreeLint.Proofs.Tandem

namespace TreeLint

/-!
# Spans are metadata

Trees that differ in their spans only are treated alike: rules whose callbacks do not look at spans
fix them in the same way, and report the same about them at the same places of the tree. They are
printed alike, too.

* `Engine.matched_run`: the runs of rules that do not look at spans match.
* `Builtin.ignoresSpans_registry`: the built-in rules are of this kind, because each of them makes a
  remark that is bare if the node is.
* `Node.layout_bare`: the layout of a tree shows no spans.
* `run_of_structurally_equal` is the result for the built-in rules and the formatter.
-/

/-! ### Runs -/

/-- Walks with one bare form are coupled. -/
theorem coupled_of_bare {w w' : Walked (Option Node)}
    (h : w.bare (Option.map Node.bare) = w'.bare (Option.map Node.bare)) :
    Coupled (fun s t => s.bare = t.bare) (fun a b => a.map Node.bare = b.map Node.bare) w w' := by
  obtain ⟨result, s⟩ := w
  obtain ⟨result', s'⟩ := w'
  obtain ⟨hresult, hstate⟩ := Prod.mk.inj h
  cases result with
  | error err =>
    cases result' with
    | error err' =>
      obtain rfl : err = err' := Except.error.inj hresult
      exact .failed err hstate
    | ok b => cases hresult
  | ok a =>
    cases result' with
    | error err' => cases hresult
    | ok b => exact .ended (Except.ok.inj hresult) hstate

/-- Structurally equal trees, and queues with structurally equal nodes. -/
theorem fixLaw_bare : FixLaw (fun a b => a.bare = b.bare) (fun q q' => q.bare = q'.bare) where
  isEmpty := by
    intro q q' h
    rw [← q.isEmpty_bare, h, q'.isEmpty_bare]
  same := by
    intro a a' b b' ha hb
    rw [← Node.beq_bare a b, ha, hb, Node.beq_bare]
  edits := by
    intro tree tree' q q' htree hq
    have happly : applyEdits tree.bare q.bare = applyEdits tree'.bare q'.bare := by rw [htree, hq]
    rw [applyEdits_bare, applyEdits_bare, Applied.mk.injEq] at happly
    obtain ⟨htree, happlied, hstale, hconflicts, habsorbed⟩ := happly
    exact ⟨htree, happlied, hstale, hconflicts, habsorbed⟩

/-- What is recorded can be compared without spans. -/
theorem recordLaw_bare :
    RecordLaw fun ds ds' => ds.map Diagnostic.bare = ds'.map Diagnostic.bare :=
  RecordLaw.ofMap (f := Diagnostic.bare) (fun _ => rfl) fun _ _ => rfl

/-- **Runs over structurally equal trees match**, if no rule looks at spans. -/
theorem Engine.matched_run (e : Engine) (he : e.registry.IgnoresSpans) (cancelled : Bool)
    {tree tree' : Node} (h : tree.bare = tree'.bare) :
    (e.run cancelled tree).Matched (Outcome.Matched (fun a b => a.bare = b.bare)
        fun ds ds' => ds.map Diagnostic.bare = ds'.map Diagnostic.bare)
      (e.run cancelled tree') := by
  rw [run_eq_runWith, run_eq_runWith]
  refine matched_runWith fixLaw_bare recordLaw_bare rfl ?_ cancelled h
  intro i cancelled tree tree' htree
  -- A pass begins without diagnostics, so that its collector is bare.
  have hwalks : (traverse e.registry e.config.maxDepth tree e.collector).bare (Option.map Node.bare)
      = (traverse e.registry e.config.maxDepth tree' e.collector).bare (Option.map Node.bare) := by
    rw [← traverse_bare he, ← traverse_bare he, htree]
  rw [runPass_eq_ofWalk, runPass_eq_ofWalk]
  refine matched_ofWalk ?_ ?_ ?_ cancelled (coupled_of_bare hwalks)
  · intro s t hstates
    show s.bare.edits = t.bare.edits
    rw [hstates]
  · intro s t hstates
    show s.bare.collector.diagnostics = t.bare.collector.diagnostics
    rw [hstates]
  · intro s t hstates
    show s.bare.cancelled = t.bare.cancelled
    rw [hstates]

/-! ### The built-in rules -/

/-- The remark with a bare node. -/
def Remark.bare : Remark → Remark
  | nothing => nothing
  | report message => report message
  | repair message fixed => repair message fixed.bare
  | discard message => discard message

/-- What a rule puts in place has no spans if the node has none. -/
theorem Transform.after_bare (p : Path) (g : Graft) : after p.bare g.bare = (after p g).bare := by
  have hsame : (g.bare.node == p.bare.node) = (g.node == p.node) := Node.beq_bare g.node p.node
  unfold after
  rw [hsame]
  split
  · rfl
  · rfl

/-- What is made of a remark does not depend on spans. -/
theorem Remark.reaction_bare (remark : Remark) (p : Path) (c : Collector) (category : Category) :
    remark.bare.reaction p.bare c.bare category = (remark.reaction p c category).bare := by
  have hlocation : p.bare.sourceLocation = p.sourceLocation.bare :=
    congrArg (SourceLocation.mk · p.location) p.node.span_bare
  have happlies : c.bare.applies category = c.applies category := rfl
  cases remark with
  | nothing => rfl
  | report message =>
    simp only [bare, reaction, Reaction.report, hlocation]
    rfl
  | discard message =>
    simp only [bare, reaction, Reaction.discard, hlocation, happlies]
    cases c.applies category with
    | true => rfl
    | false => rfl
  | repair message fixed =>
    have hchoose : Graft.ofNode (c.bare.choose category ⟨p.bare.node, fixed.bare⟩)
        = (Graft.ofNode (c.choose category ⟨p.node, fixed⟩)).bare := by
      unfold Collector.choose
      rw [happlies]
      cases c.applies category with
      | true => rfl
      | false => rfl
    simp only [bare, reaction, Reaction.repair, hlocation, hchoose, Transform.after_bare]
    rfl

namespace Builtin

/-- Whether an element is open and empty does not depend on spans. -/
theorem openEmptyElement?_bare (n : Node) : openEmptyElement? n.bare = openEmptyElement? n := by
  have hchildren : n.bare.hasChildren = n.hasChildren := by
    unfold Node.hasChildren
    rw [Node.children_bare, List.isEmpty_map]
  unfold openEmptyElement?
  rw [Node.payload_bare, hchildren]

/-- What is said about closing an element does not depend on spans. -/
theorem closingRemark_bare (test : String → Bool) (message : MessageId) (n : Node) :
    closingRemark test message n.bare = (closingRemark test message n).bare := by
  unfold closingRemark
  rw [openEmptyElement?_bare]
  cases openEmptyElement? n with
  | none => rfl
  | some element =>
    simp only
    split
    · simp only [Remark.bare, Node.bare_withPayload]
    · rfl

/-- What is said about comments does not depend on spans. -/
theorem commentRemark_bare (n : Node) : commentRemark n.bare = (commentRemark n).bare := by
  unfold commentRemark isEmptyComment
  rw [Node.commentText?_bare]
  split
  · rfl
  · rfl

/-- What is said about constraints does not depend on spans. -/
theorem constraintRemark_bare (n : Node) : constraintRemark n.bare = (constraintRemark n).bare := by
  unfold constraintRemark
  rw [Node.payload_bare]
  split
  · split
    · simp only [Remark.bare, Node.bare_withPayload]
    · rfl
  · rfl

/-- What is said about interfaces does not depend on spans. -/
theorem interfaceRemark_bare (n : Node) : interfaceRemark n.bare = (interfaceRemark n).bare := by
  have hbody : hasEmptyBody n.bare = hasEmptyBody n := by
    unfold hasEmptyBody
    rw [Node.children_bare, List.find?_map, Option.any_map]
    simp [Node.hasChildren]
  unfold interfaceRemark
  rw [hbody]
  split
  · rfl
  · rfl

/-- Members are told apart by their names. -/
theorem distinctMembers_bare (seen : List String) (ms : List Node) :
    distinctMembers seen (ms.map Node.bare) = (distinctMembers seen ms).map Node.bare := by
  induction ms generalizing seen with
  | nil => rfl
  | cons m ms ih =>
    -- Members are told apart by their names, and these are part of the payload.
    have hname : m.bare.propertyName? = m.propertyName? := by
      unfold Node.propertyName?
      rw [Node.payload_bare]
    rw [List.map_cons, distinctMembers, distinctMembers, hname]
    cases m.propertyName? with
    | none =>
      simp only [List.map_cons]
      rw [ih]
    | some name =>
      simp only
      split
      · exact ih seen
      · rw [List.map_cons, ih]

/-- What is said about members does not depend on spans. -/
theorem memberRemark_bare (n : Node) : memberRemark n.bare = (memberRemark n).bare := by
  unfold memberRemark
  simp only [Node.children_bare, distinctMembers_bare, List.length_map]
  split
  · rfl
  · simp only [Remark.bare, Node.bare_withChildren]

/-- The built-in rules look at no spans. -/
theorem ignoresSpans_registry : registry.IgnoresSpans := by
  intro r hr phase callback hcallback p c
  obtain ⟨remark, hmem, callback', hcallback', hremark⟩ := exists_mem_remarks hr hcallback
  obtain rfl : callback = callback' := Option.some.inj (hcallback.symm.trans hcallback')
  have hbare : remark p.bare.node = (remark p.node).bare := by
    simp only [remarks, assignments, List.map_cons, List.map_nil, List.mem_cons,
      List.not_mem_nil, or_false] at hmem
    rcases hmem with rfl | rfl | rfl | rfl | rfl | rfl
    · exact closingRemark_bare _ _ p.node
    · exact closingRemark_bare _ _ p.node
    · exact commentRemark_bare p.node
    · exact constraintRemark_bare p.node
    · exact interfaceRemark_bare p.node
    · exact memberRemark_bare p.node
  rw [hremark, hremark, hbare]
  exact (remark p.node).reaction_bare p c r.category

end Builtin

/-! ### Printing -/

/-- The layout of a tree does not depend on spans. -/
theorem Node.layout_bare (parent : Option Kind) (n : Node) :
    n.bare.layout parent = n.layout parent := by
  induction n generalizing parent with
  | node payload span cs ih =>
    have hchildren : ∀ kind, layoutAll kind (cs.map bare) = layoutAll kind cs := by
      intro kind
      induction cs with
      | nil => rfl
      | cons c cs ihcs =>
        rw [List.map_cons, layoutAll, layoutAll, kind_bare, ih c List.mem_cons_self,
          ihcs fun d hd => ih d (List.mem_cons_of_mem c hd)]
    rw [bare_mk, layout, layout, hchildren]

/-! ### The result -/

/-- Patches with structurally equal nodes. -/
def Patch.Same (p p' : Patch) : Prop := (p.old == p'.old) = true ∧ (p.fixed == p'.fixed) = true

/-- Diagnostics that differ in spans only, both where they point and in what their fixes hold. -/
structure Diagnostic.Same (d d' : Diagnostic) : Prop where
  category : d.category = d'.category
  node : d.location.node = d'.location.node
  message : d.message = d'.message
  patch : Option.Rel Patch.Same d.patch d'.patch
  suppressed : d.suppressed = d'.suppressed
  status : d.status = d'.status

/-- Diagnostics that are equal without spans are the same. -/
theorem Diagnostic.same_of_bare {d d' : Diagnostic} (h : d.bare = d'.bare) : d.Same d' := by
  obtain ⟨category, ⟨span, node⟩, message, patch, suppressed, status⟩ := d
  obtain ⟨category', ⟨span', node'⟩, message', patch', suppressed', status'⟩ := d'
  obtain ⟨hcategory, hlocation, hmessage, hpatch, hsuppressed, hstatus⟩ := Diagnostic.mk.inj h
  refine ⟨hcategory, (SourceLocation.mk.inj hlocation).2, hmessage, ?_, hsuppressed, hstatus⟩
  cases patch with
  | none =>
    cases patch' with
    | none => exact .none
    | some patch' => cases hpatch
  | some patch =>
    cases patch' with
    | none => cases hpatch
    | some patch' =>
      obtain ⟨hold, hfixed⟩ := Patch.mk.inj (Option.some.inj hpatch)
      exact .some ⟨Node.beq_iff_bare.mpr hold, Node.beq_iff_bare.mpr hfixed⟩

/-- Lists of diagnostics that are equal without spans are the same one by one. -/
theorem forall₂_same_of_bare {ds ds' : List Diagnostic}
    (h : ds.map Diagnostic.bare = ds'.map Diagnostic.bare) :
    List.Forall₂ Diagnostic.Same ds ds' := by
  rw [← List.forall₂_eq_eq_eq, List.forall₂_map_left_iff, List.forall₂_map_right_iff] at h
  exact h.imp fun _ _ => Diagnostic.same_of_bare

/-- **Spans are metadata.** Runs of the built-in rules over structurally equal trees fail with one
    error, or end with structurally equal trees after equally many passes, with the same conflicts
    and warnings, and with diagnostics that differ in spans only. The trees are printed alike. -/
theorem run_of_structurally_equal (config : Config) (cancelled : Bool) (tree tree' : Node)
    (h : (tree == tree') = true) :
    (Engine.run ⟨Builtin.registry, config⟩ cancelled tree).Matched
        (Outcome.Matched (fun a b => (a == b) = true) (List.Forall₂ Diagnostic.Same))
        (Engine.run ⟨Builtin.registry, config⟩ cancelled tree') ∧
      ∀ options, format options tree = format options tree' := by
  have hbare := Node.beq_iff_bare.mp h
  refine ⟨?_, fun options => ?_⟩
  · refine (Engine.matched_run _ Builtin.ignoresSpans_registry cancelled hbare).mono ?_
    intro o o' ho
    exact ⟨Node.beq_iff_bare.mpr ho.tree, forall₂_same_of_bare ho.diagnostics, ho.conflicts,
      ho.warnings, ho.iterations, ho.converged⟩
  · unfold format formatWith
    rw [← tree.layout_bare, hbare, Node.layout_bare]

/-- A page with something to fix, as it is found in a source. -/
def placedPage : Node :=
  ⟨.document, ⟨0, 28, by decide⟩,
    [⟨.element "div" [] false, ⟨0, 19, by decide⟩, [⟨.comment " ", ⟨5, 13, by decide⟩, []⟩]⟩,
      ⟨.element "br" [] false, ⟨20, 28, by decide⟩, []⟩]⟩

/-- The page is fixed in the same way with and without spans: both runs take three passes and report
    three diagnostics, although these point at different places of the source. -/
theorem run_placedPage :
    (placedPage == placedPage.bare) = true ∧
      ∃ o o',
        (Engine.run ⟨Builtin.registry, sampleConfig 5⟩ false placedPage).result = .ok o ∧
        (Engine.run ⟨Builtin.registry, sampleConfig 5⟩ false placedPage.bare).result = .ok o' ∧
        o.iterations = 3 ∧
        o.diagnostics.map (·.location.span.start) = [5, 20, 0] ∧
        o'.diagnostics.map (·.location.span.start) = [0, 0, 0] ∧
        Outcome.Matched (fun a b => (a == b) = true) (List.Forall₂ Diagnostic.Same) o o' := by
  have hsame : (placedPage == placedPage.bare) = true := by decide
  have hfirst : ((Engine.run ⟨Builtin.registry, sampleConfig 5⟩ false
      placedPage).result.toOption.map fun o =>
        (o.iterations, o.diagnostics.map (·.location.span.start))) = some (3, [5, 20, 0]) := by
    decide +kernel
  have hsecond : ((Engine.run ⟨Builtin.registry, sampleConfig 5⟩ false
      placedPage.bare).result.toOption.map fun o =>
        o.diagnostics.map (·.location.span.start)) = some [0, 0, 0] := by
    decide +kernel
  obtain ⟨o, ho, hvalues⟩ := exists_ok_of_map_toOption hfirst
  obtain ⟨o', ho', hspans⟩ := exists_ok_of_map_toOption hsecond
  obtain ⟨o'', ho'', hmatched⟩ :=
    (run_of_structurally_equal (sampleConfig 5) false _ _ hsame).1.exists_ok ho
  obtain rfl : o'' = o' := Except.ok.inj (ho''.symm.trans ho')
  obtain ⟨hiterations, hplaces⟩ := Prod.mk.inj hvalues
  exact ⟨hsame, o, o'', ho, ho', hiterations, hplaces, hspans, hmatched⟩

end TreeLint
