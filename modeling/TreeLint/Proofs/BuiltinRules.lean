import Mathlib
import TreeLint.Proofs.NormalForm
import TreeLint.Proofs.Reaction

namespace TreeLint.Builtin

/-!
# What the built-in rules do at one node

With fixes on and all categories enabled, the rules for a node have a simple effect on it.

* Before its children an empty comment is removed (`ran_enter_comment`), a node that is tidy is left
  alone (`ran_enter_same`), and any other node gets its tidy payload (`ran_enter_changed`).
* After its children a node keeps the members that `selectMembers` keeps, and an edit is queued only
  if some have to go (`ran_exit_same`, `ran_exit_changed`).
-/

/-- Fixes of all rules of the library are to be made. -/
def Fixes (c : Collector) : Prop := ∀ r ∈ rules, c.applies r.category = true

/-- Fixes stay on as long as nothing that decides about them changes. -/
theorem Fixes.of_steady {a b : WalkState} (h : Fixes a.collector) (hab : a.Steady b) :
    Fixes b.collector := by
  intro r hr
  rw [hab.applies]
  exact h r hr

/-! ### Before the children -/

section Enter

variable {n : Node} {l : Location} {above : List Step} {s : WalkState}

/-- The path of a node that the walk comes to. -/
abbrev arrival (n : Node) (l : Location) (above : List Step) : Path :=
  ⟨⟨Graft.ofNode n, n, l⟩, above⟩

/-- Elements that are closed or have children are left alone. -/
theorem closeElement_of_none {test : String → Bool} {category : Category} {message : MessageId}
    {p : Path} (c : Collector) (h : openEmptyElement? p.node = none) :
    closeElement test category message p c = Reaction.nothing := by
  unfold closeElement
  rw [h]

/-- An open empty element is repaired if its tag passes the test. -/
theorem closeElement_of_some {test : String → Bool} {category : Category} {message : MessageId}
    {p : Path} (c : Collector) {tag : String} {attributes : List Attribute}
    (h : openEmptyElement? p.node = some (tag, attributes)) :
    closeElement test category message p c
      = if test tag then
          Reaction.repair p c category message (p.node.withPayload (.element tag attributes true))
        else Reaction.nothing := by
  unfold closeElement
  rw [h]

/-- An empty comment is removed. -/
theorem ran_enter_comment (hs : Fixes s.collector) (h : isEmptyComment n = true) :
    Ran s (runRules .enter (registry.lookup n.kind) (arrival n l above) s) none
      (s.edits.push l n .remove) := by
  obtain ⟨payload, span, cs⟩ := n
  cases payload with
  | comment value =>
    have hdiscard : (if isEmptyComment ⟨.comment value, span, cs⟩ then
        Reaction.discard (arrival ⟨.comment value, span, cs⟩ l above) s.collector
          noEmptyComment.category ⟨"html.emptyComment"⟩
        else Reaction.nothing) = _ := if_pos h
    exact ran_cons_none
      (ran_discard (r := noEmptyComment) rfl rfl (hs _ (by simp [rules])) hdiscard)
  | _ => exact absurd h (by simp [isEmptyComment, Node.commentText?])

/-- An element without children that is not self-closing would be tidied. -/
theorem openEmptyElement?_eq_none
    (htidy : tidyPayload n.children.isEmpty n.payload = n.payload) :
    openEmptyElement? n = none := by
  obtain ⟨payload, span, cs⟩ := n
  cases payload with
  | element tag attributes selfClosing =>
    cases selfClosing with
    | true => rfl
    | false =>
      cases cs with
      | cons c cs => rfl
      | nil => exact absurd htidy (by simp [tidyPayload])
  | _ => rfl

/-- No rule asks for an edit of a node that is tidy. -/
theorem isQuiet_enter (hcomment : isEmptyComment n = false)
    (htidy : tidyPayload n.children.isEmpty n.payload = n.payload) {r : Rule} (hr : r ∈ rules)
    {callback : Callback} (hcb : r.callback? .enter = some callback) (c : Collector) :
    (callback (arrival n l above) c).IsQuiet (arrival n l above) := by
  have hopen : openEmptyElement? (arrival n l above).node = none := openEmptyElement?_eq_none htidy
  simp only [rules, List.mem_cons, List.not_mem_nil, or_false] at hr
  rcases hr with rfl | rfl | rfl | rfl | rfl | rfl
  -- The two rules for elements look for an open one without children.
  · obtain rfl := Option.some.inj hcb
    rw [closeElement_of_none c hopen]
    exact Reaction.isQuiet_nothing _
  · obtain rfl := Option.some.inj hcb
    rw [closeElement_of_none c hopen]
    exact Reaction.isQuiet_nothing _
  -- The rule for comments.
  · obtain rfl := Option.some.inj hcb
    show Reaction.IsQuiet _ (if isEmptyComment n then _ else _)
    rw [if_neg (Bool.eq_false_iff.mp hcomment)]
    exact Reaction.isQuiet_nothing _
  -- The rule for constraints.
  · obtain rfl := Option.some.inj hcb
    obtain ⟨payload, span, cs⟩ := n
    cases payload with
    | typeParameter name constraint default =>
      cases constraint with
      | none => exact Reaction.isQuiet_nothing _
      | some constraint =>
        by_cases htop : isTopType constraint = true
        · exact absurd htidy (by simp [tidyPayload, htop])
        · show Reaction.IsQuiet _ (if isTopType constraint then _ else _)
          rw [if_neg htop]
          exact Reaction.isQuiet_nothing _
    | _ => exact Reaction.isQuiet_nothing _
  -- An empty interface is reported, but there is no fix for it.
  · obtain rfl := Option.some.inj hcb
    show Reaction.IsQuiet _ (if hasEmptyBody n then _ else _)
    split
    · exact Reaction.isQuiet_report _ _ _
    · exact Reaction.isQuiet_nothing _
  -- Members are looked at after the children only.
  · exact absurd hcb.symm (Option.some_ne_none callback)

/-- A node that is tidy is left alone before its children. -/
theorem ran_enter_same (hcomment : isEmptyComment n = false)
    (htidy : tidyPayload n.children.isEmpty n.payload = n.payload) :
    Ran s (runRules .enter (registry.lookup n.kind) (arrival n l above) s)
      (some (Graft.ofNode n)) s.edits :=
  ran_quiet_all fun _ hr _ hcb c =>
    isQuiet_enter hcomment htidy (Registry.mem_lookup.mp hr).1 hcb c

/-- An open element without children is closed, by the rule for its tag. -/
theorem ran_enter_element (hs : Fixes s.collector) (tag : String) (attributes : List Attribute)
    (span : Span) :
    Ran s (runRules .enter [preferSelfClosing, addSelfClosing]
        (arrival ⟨.element tag attributes false, span, []⟩ l above) s)
      (some (Graft.ofNode ⟨.element tag attributes true, span, []⟩))
      (s.edits.push l ⟨.element tag attributes false, span, []⟩
        (.replace ⟨.element tag attributes true, span, []⟩)) := by
  have hopen : openEmptyElement? (arrival ⟨.element tag attributes false, span, []⟩ l above).node
      = some (tag, attributes) := rfl
  have hne : ((⟨.element tag attributes true, span, []⟩ : Node)
      == ⟨.element tag attributes false, span, []⟩) = false := by
    rw [Bool.eq_false_iff, ne_eq, Node.beq_iff_bare]
    simp [Node.bare]
  by_cases hvoid : isVoidElement tag = true
  · -- Nothing is open any more when the second rule is asked.
    refine ran_cons (ran_repair rfl rfl (hs _ (by simp [rules]))
      ((closeElement_of_some s.collector hopen).trans (if_pos hvoid)) hne) fun s' _ hedits => ?_
    refine ran_cons (ran_quiet rfl ⟨rfl, rfl⟩) fun s'' _ hedits' => ?_
    exact ⟨rfl, hedits'.trans hedits, .refl s''⟩
  -- The first rule has nothing to say, and the second one closes the element.
  · have hquiet : (closeElement isVoidElement preferSelfClosing.category
        ⟨"html.voidElementNotSelfClosing"⟩
        (arrival ⟨.element tag attributes false, span, []⟩ l above) s.collector).IsQuiet
          (arrival ⟨.element tag attributes false, span, []⟩ l above) := by
      rw [closeElement_of_some s.collector hopen, if_neg hvoid]
      exact Reaction.isQuiet_nothing _
    have hopenable : (!isVoidElement tag) = true := by
      rw [Bool.not_eq_true']
      exact Bool.eq_false_iff.mpr hvoid
    refine ran_cons (ran_quiet rfl hquiet) fun s' hsteady hedits => ?_
    refine ran_cons (ran_repair rfl rfl (hs.of_steady hsteady _ (by simp [rules]))
      ((closeElement_of_some s'.collector hopen).trans (if_pos hopenable)) hne)
      fun s'' _ hedits' => ?_
    rw [hedits] at hedits'
    exact ⟨rfl, hedits', .refl s''⟩

/-- A constraint that every type meets is dropped. -/
theorem ran_enter_typeParameter (hs : Fixes s.collector) (name : String) {constraint : String}
    (htop : isTopType constraint = true) (default : Option String) (span : Span) (cs : List Node) :
    Ran s (runRules .enter [noUnknownConstraint]
        (arrival ⟨.typeParameter name (some constraint) default, span, cs⟩ l above) s)
      (some (Graft.ofNode ⟨.typeParameter name none default, span, cs⟩))
      (s.edits.push l ⟨.typeParameter name (some constraint) default, span, cs⟩
        (.replace ⟨.typeParameter name none default, span, cs⟩)) := by
  have hne : ((⟨.typeParameter name none default, span, cs⟩ : Node)
      == ⟨.typeParameter name (some constraint) default, span, cs⟩) = false := by
    rw [Bool.eq_false_iff, ne_eq, Node.beq_iff_bare]
    simp [Node.bare]
  have hrepair : (if isTopType constraint then
      Reaction.repair (arrival ⟨.typeParameter name (some constraint) default, span, cs⟩ l above)
        s.collector noUnknownConstraint.category ⟨"ts.unnecessaryConstraint"⟩
        ⟨.typeParameter name none default, span, cs⟩
      else Reaction.nothing) = _ := if_pos htop
  have hcb : noUnknownConstraint.callback? .enter = some _ := rfl
  have hran : Ran s (runRule noUnknownConstraint .enter
      (arrival ⟨.typeParameter name (some constraint) default, span, cs⟩ l above) s) _ _ :=
    ran_repair hcb rfl (hs _ (by simp [rules])) hrepair hne
  exact ran_cons hran fun s' _ hedits => ⟨rfl, hedits, .refl s'⟩

/-- Any other node is replaced by the tidy one. -/
theorem ran_enter_changed (hs : Fixes s.collector)
    (htidy : tidyPayload n.children.isEmpty n.payload ≠ n.payload) :
    Ran s (runRules .enter (registry.lookup n.kind) (arrival n l above) s)
      (some (Graft.ofNode (n.withPayload (tidyPayload n.children.isEmpty n.payload))))
      (s.edits.push l n (.replace (n.withPayload (tidyPayload n.children.isEmpty n.payload)))) := by
  obtain ⟨payload, span, cs⟩ := n
  -- Only two kinds of nodes are changed on entry.
  cases payload with
  | element tag attributes selfClosing =>
    cases selfClosing with
    | true => exact absurd rfl htidy
    | false =>
      cases cs with
      | cons c cs => exact absurd rfl htidy
      | nil => exact ran_enter_element hs tag attributes span
  | typeParameter name constraint default =>
    cases constraint with
    | none => exact absurd rfl htidy
    | some constraint =>
      by_cases htop : isTopType constraint = true
      · have htidied : tidyPayload cs.isEmpty (.typeParameter name (some constraint) default)
            = .typeParameter name none default := by
          simp [tidyPayload, htop]
        show Ran s _ (some (Graft.ofNode ⟨tidyPayload cs.isEmpty _, span, cs⟩))
          (s.edits.push l _ (.replace ⟨tidyPayload cs.isEmpty _, span, cs⟩))
        rw [htidied]
        exact ran_enter_typeParameter hs name htop default span cs
      · exact absurd (by simp [tidyPayload, htop]) htidy
  | _ => exact absurd rfl htidy

end Enter

/-! ### After the children -/

section Exit

variable {left found : Node} {l : Location} {above : List Step} {s : WalkState}

/-- The path of a node that the walk leaves. -/
abbrev departure (left found : Node) (l : Location) (above : List Step) : Path :=
  ⟨⟨Graft.ofNode left, found, l⟩, above⟩

theorem payload_eq_interfaceBody (h : left.kind = .interfaceBody) :
    left.payload = .interfaceBody := by
  obtain ⟨payload, span, cs⟩ := left
  cases payload with
  | interfaceBody => rfl
  | _ => exact Kind.noConfusion h

/-- A node whose members all stay is left alone after its children. -/
theorem ran_exit_same (hkind : left.kind = found.kind)
    (hmembers : selectMembers left.payload left.children = left.children) :
    Ran s (runRules .exit (registry.lookup found.kind) (departure left found l above) s)
      (some (Graft.ofNode left)) s.edits := by
  refine ran_quiet_all fun r hr callback hcb c => ?_
  obtain ⟨hr, haccepts⟩ := Registry.mem_lookup.mp hr
  simp only [registry, rules, List.mem_cons, List.not_mem_nil, or_false] at hr
  rcases hr with rfl | rfl | rfl | rfl | rfl | rfl
  -- The rule for members is the only one that has something to say after the children.
  case inr.inr.inr.inr.inr =>
    obtain rfl := Option.some.inj hcb
    have hbody := payload_eq_interfaceBody (hkind.trans (of_decide_eq_true haccepts))
    rw [hbody] at hmembers
    have hlength : (distinctMembers [] left.children).length = left.children.length := by
      rw [distinctMembers_eq]
      exact congrArg List.length hmembers
    show Reaction.IsQuiet _
      (if (distinctMembers [] left.children).length = left.children.length then _ else _)
    rw [if_pos hlength]
    exact Reaction.isQuiet_nothing _
  all_goals exact absurd hcb.symm (Option.some_ne_none callback)

/-- A node with members that have to go is replaced by the node without them. -/
theorem ran_exit_changed (hs : Fixes s.collector) (hkind : left.kind = found.kind)
    (hmembers : selectMembers left.payload left.children ≠ left.children) :
    Ran s (runRules .exit (registry.lookup found.kind) (departure left found l above) s)
      (some (Graft.ofNode (left.withChildren (selectMembers left.payload left.children))))
      (s.edits.push l found
        (.replace (left.withChildren (selectMembers left.payload left.children)))) := by
  rw [← hkind]
  obtain ⟨payload, span, cs⟩ := left
  cases payload with
  | interfaceBody =>
    -- Members are left out, so the lengths differ, which is what the rule looks at.
    have hlength : ¬ (distinctMembers [] cs).length = cs.length := by
      rw [distinctMembers_eq]
      exact fun h => hmembers ((firstOfEachName_sublist cs).eq_of_length h)
    have hne : ((⟨.interfaceBody, span, distinctMembers [] cs⟩ : Node)
        == ⟨.interfaceBody, span, cs⟩) = false := by
      rw [Bool.eq_false_iff, ne_eq, Node.beq_iff_bare]
      intro h
      rw [Node.bare, Node.bare, Node.mk.injEq, Node.bareAll_eq, Node.bareAll_eq] at h
      exact hlength (by simpa using congrArg List.length h.2.2)
    have hrepair : (if (distinctMembers [] cs).length = cs.length then Reaction.nothing
        else Reaction.repair (departure ⟨.interfaceBody, span, cs⟩ found l above) s.collector
          noDuplicateMember.category ⟨"ts.duplicateMember"⟩
          ⟨.interfaceBody, span, distinctMembers [] cs⟩) = _ := if_neg hlength
    have hran : Ran s (runRule noDuplicateMember .exit
        (departure ⟨.interfaceBody, span, cs⟩ found l above) s) _ _ :=
      ran_repair rfl rfl (hs _ (by simp [rules])) hrepair hne
    rw [distinctMembers_eq] at hran
    refine ran_cons hran fun s' _ hedits => ?_
    exact ⟨rfl, hedits, .refl s'⟩
  | _ => exact absurd rfl hmembers

end Exit

end TreeLint.Builtin
