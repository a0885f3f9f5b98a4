import Mathlib
import TreeLint.Layout.Tree
import TreeLint.Proofs.Document
import TreeLint.Proofs.Node

namespace TreeLint

/-!
# What layouts are made of

The layout of a node is put together from the layouts of its children, texts of the node and a fixed
list of tokens. A property that passes through these steps holds of all layouts, and the kinds of
nodes have to be looked at only once.

* `Layout.marks` lists the tokens of layouts.
* `Layout.Made`: what can be made of the layouts of children. Groups add one level and do not stand
  in one another, and spaces stand in groups only.
* `Layout.made_ofPayload`: the document of a node is made of those of its children.
* `Node.Composes` are the properties that pass through all these steps. They hold of the layouts of
  all trees (`Node.Composes.layout`).
* `Node.tokensAll_layout`: what holds of the marks holds of the tokens of every layout.
-/

namespace Layout

open Document

/-- The tokens of layouts. -/
def marks : List String :=
  ["<", " />", ">", "</", "<!---->", "<!-- ", " -->", "interface ", " ", ",", "extends", "=",
    "\x7b\x7d", "\x7b", "\x7d", "readonly ", "?", ": ", ";"]

/-- The document is made of the documents of `children` with marks, texts, line breaks, groups of
    one level and, inside these, spaces. Whether it stands in such a group itself is told by
    `inside`. -/
inductive Made (children : List (Kind × Document)) : (inside : Bool) → Document → Prop where
  | mark {inside : Bool} {t : String} (h : t ∈ marks) : Made children inside (token t)
  | text {inside : Bool} (t : String) : Made children inside (text t)
  | lineBreak {inside : Bool} : Made children inside lineBreak
  | space : Made children true space
  | child {inside : Bool} {c : Kind × Document} (h : c ∈ children) : Made children inside c.2
  | concat {inside : Bool} {ds : List Document} (h : ∀ d ∈ ds, Made children inside d) :
      Made children inside (concat ds)
  | groupOf {ds : List Document} (h : ∀ d ∈ ds, Made children true d) :
      Made children false (groupOf 1 ds)

section Payloads

variable {children : List (Kind × Document)}

/-- Nothing but commas and spaces is put between the documents. -/
theorem mem_separated {d : Document} {ds : List Document} (h : d ∈ separated ds) :
    d ∈ ds ∨ d = token "," ∨ d = space := by
  induction ds with
  | nil => exact .inl h
  | cons e es ih =>
    cases es with
    | nil => exact .inl h
    | cons e' es =>
      rw [separated] at h
      · simp only [List.mem_cons] at h ih ⊢
        tauto
      · exact List.cons_ne_nil e' es

/-- Children on lines of their own stand in a group, with a line break before each. -/
theorem made_indentedLines (children : List (Kind × Document)) :
    Made children false (indentedLines (children.map (·.2))) := by
  refine .groupOf fun d hd => ?_
  obtain ⟨e, he, hd⟩ := List.mem_flatMap.mp hd
  obtain ⟨c, hc, rfl⟩ := List.mem_map.mp he
  rcases List.mem_pair.mp hd with rfl | rfl
  · exact .lineBreak
  · exact .child hc

/-- An element is made of a group with its attributes, of its children and of the closing tag. -/
theorem made_element (tag : String) (attributes : List Attribute) (selfClosing : Bool)
    (children : List (Kind × Document)) :
    Made children false (element tag attributes selfClosing children) := by
  have hhead : Made children false (groupOf 1 (token "<" :: text tag ::
      attributes.flatMap fun a => [space, text (attributeText a)])) := by
    refine .groupOf fun d hd => ?_
    simp only [List.mem_cons, List.mem_flatMap, List.not_mem_nil, or_false] at hd
    rcases hd with rfl | rfl | ⟨a, -, rfl | rfl⟩
    · exact .mark (by decide)
    · exact .text _
    · exact .space
    · exact .text _
  have hclose : Made children false (concat [token "</", text tag, token ">"]) := by
    refine .concat ?_
    simp only [List.forall_mem_cons]
    exact ⟨.mark (by decide), .text _, .mark (by decide), List.forall_mem_nil _⟩
  simp only [element]
  split_ifs
  · refine .concat ?_
    simp only [List.forall_mem_cons]
    exact ⟨hhead, .mark (by decide), List.forall_mem_nil _⟩
  · -- The children stand in the line of the tags, outside of any group.
    refine .concat ?_
    simp only [List.forall_mem_append, List.forall_mem_cons, List.forall_mem_map]
    exact ⟨⟨hhead, .mark (by decide), fun c hc => .child hc⟩, hclose, List.forall_mem_nil _⟩
  · refine .concat ?_
    simp only [List.forall_mem_cons]
    exact ⟨hhead, .mark (by decide), made_indentedLines children, .lineBreak, hclose,
      List.forall_mem_nil _⟩

/-- **The document of a node is made of those of its children.** -/
theorem made_ofPayload (parent : Option Kind) (payload : Payload)
    (children : List (Kind × Document)) :
    Made children false (ofPayload parent payload children) := by
  -- By the kind of the node, as layouts are.
  cases payload with
  | document =>
    refine .concat fun d hd => ?_
    obtain ⟨c, hc, hd⟩ := List.mem_flatMap.mp hd
    rcases List.mem_pair.mp hd with rfl | rfl
    · exact .child hc
    · exact .lineBreak
  | element tag attributes selfClosing => exact made_element tag attributes selfClosing children
  | text value => exact .text value
  | comment value =>
    simp only [ofPayload, comment]
    split_ifs
    · exact .mark (by decide)
    · refine .concat ?_
      simp only [List.forall_mem_cons]
      exact ⟨.mark (by decide), .text _, .mark (by decide), List.forall_mem_nil _⟩
  | interface name =>
    refine .concat ?_
    simp only [List.forall_mem_cons, List.forall_mem_flatMap]
    refine ⟨.mark (by decide), .text _, fun c hc => ?_⟩
    split_ifs <;> simp only [List.forall_mem_cons]
    · exact ⟨.mark (by decide), .child hc, List.forall_mem_nil _⟩
    · exact ⟨.child hc, List.forall_mem_nil _⟩
  | typeParameterList =>
    refine .groupOf ?_
    simp only [List.forall_mem_append, List.forall_mem_cons]
    refine ⟨⟨.mark (by decide), fun d hd => ?_⟩, .mark (by decide), List.forall_mem_nil _⟩
    rcases mem_separated hd with hd | rfl | rfl
    · obtain ⟨c, hc, rfl⟩ := List.mem_map.mp hd
      exact .child hc
    · exact .mark (by decide)
    · exact .space
  | typeParameter name constraint default =>
    refine .groupOf ?_
    simp only [List.forall_mem_append, List.forall_mem_cons, List.forall_mem_flatMap]
    exact ⟨⟨.text _, fun c _ =>
        ⟨.space, .mark (by decide), .space, .text _, List.forall_mem_nil _⟩⟩,
      fun d _ => ⟨.space, .mark (by decide), .space, .text _, List.forall_mem_nil _⟩⟩
  | interfaceBody =>
    simp only [ofPayload, interfaceBody]
    split_ifs
    · exact .mark (by decide)
    · refine .concat ?_
      simp only [List.forall_mem_cons]
      exact ⟨.mark (by decide), made_indentedLines children, .lineBreak, .mark (by decide),
        List.forall_mem_nil _⟩
  | propertySignature name optional readonly declaredType =>
    -- Three of the marks of a property are optional.
    have hoptional : ∀ (b : Prop) [Decidable b] (t : String), t ∈ marks →
        ∀ d ∈ (if b then [token t] else []), Made children false d := by
      intro b _ t ht d hd
      split_ifs at hd
      · rw [List.mem_singleton.mp hd]
        exact .mark ht
      · cases hd
    refine .concat ?_
    simp only [List.forall_mem_append, List.forall_mem_cons, List.forall_mem_flatMap]
    exact ⟨⟨⟨⟨hoptional _ _ (by decide), .text _, List.forall_mem_nil _⟩,
      hoptional _ _ (by decide)⟩, fun a _ => ⟨.mark (by decide), .text _, List.forall_mem_nil _⟩⟩,
      hoptional _ _ (by decide)⟩

end Payloads

end Layout

namespace Node

/-- The layouts of the children know the kind of their parent. -/
theorem mem_layoutAll {parent : Kind} {x : Kind × Document} {cs : List Node}
    (h : x ∈ layoutAll parent cs) : ∃ c ∈ cs, x = (c.kind, c.layout (some parent)) := by
  induction cs with
  | nil => cases h
  | cons c cs ih =>
    rw [layoutAll] at h
    rcases List.mem_cons.mp h with rfl | h
    · exact ⟨c, List.mem_cons_self, rfl⟩
    · obtain ⟨d, hd, rfl⟩ := ih h
      exact ⟨d, List.mem_cons_of_mem c hd, rfl⟩

variable {P : Node → Bool → Document → Prop}

/-- A property of what is put together for a node: it holds of the marks, texts and breaks, passes
    from a child that stands alone to the node, and through groups. -/
structure Composes (P : Node → Bool → Document → Prop) : Prop where
  mark : ∀ n inside, ∀ t ∈ Layout.marks, P n inside (.token t)
  text : ∀ n inside t, P n inside (.text t)
  lineBreak : ∀ n inside, P n inside .lineBreak
  space : ∀ n, P n true .space
  child : ∀ n inside, ∀ m ∈ n.children, ∀ d, P m false d → P n inside d
  concat : ∀ n inside ds, (∀ d ∈ ds, P n inside d) → P n inside (.concat ds)
  groupOf : ∀ n ds, (∀ d ∈ ds, P n true d) → P n false (.groupOf 1 ds)

/-- What holds of the children holds of all that is made of them. -/
theorem Composes.of_made (h : Composes P) {n : Node} {children : List (Kind × Document)}
    (hchildren : ∀ c ∈ children, ∃ m ∈ n.children, P m false c.2) {inside : Bool} {d : Document}
    (hd : Layout.Made children inside d) : P n inside d := by
  induction hd with
  | mark ht => exact h.mark n _ _ ht
  | text t => exact h.text n _ t
  | lineBreak => exact h.lineBreak n _
  | space => exact h.space n
  | child hc =>
    obtain ⟨m, hm, hP⟩ := hchildren _ hc
    exact h.child n _ m hm _ hP
  | concat _ ih => exact h.concat n _ _ ih
  | groupOf _ ih => exact h.groupOf n _ ih

/-- **What composes holds of the layouts of all trees.** -/
theorem Composes.layout (h : Composes P) (n : Node) (parent : Option Kind) :
    P n false (n.layout parent) := by
  induction n generalizing parent with
  | node payload span cs ih =>
    rw [Node.layout]
    refine h.of_made (fun x hx => ?_) (Layout.made_ofPayload parent payload _)
    obtain ⟨c, hc, rfl⟩ := mem_layoutAll hx
    exact ⟨c, hc, ih c hc _⟩

/-! ### The tokens of a layout -/

/-- What holds of the marks composes, for no other tokens are put in. -/
theorem composes_tokensAll {Q : String → Prop} (hQ : ∀ t ∈ Layout.marks, Q t) :
    Composes fun _ _ d => d.TokensAll Q where
  mark _ _ t ht := Document.tokensAll_token.mpr (hQ t ht)
  text _ _ t := Document.tokensAll_text t
  lineBreak _ _ := Document.tokensAll_lineBreak
  space _ := Document.tokensAll_space
  child _ _ _ _ _ h := h
  concat _ _ _ h := Document.tokensAll_concat.mpr h
  groupOf _ _ h := Document.tokensAll_group.mpr (Document.tokensAll_concat.mpr h)

/-- **The tokens of a layout are marks.** -/
theorem tokensAll_layout {Q : String → Prop} (hQ : ∀ t ∈ Layout.marks, Q t) (parent : Option Kind)
    (n : Node) : (n.layout parent).TokensAll Q :=
  (composes_tokensAll hQ).layout n parent

/-- No token of a layout holds a line feed. -/
theorem tokensFreeOf_layout (parent : Option Kind) (n : Node) :
    (n.layout parent).TokensFreeOf '\n' :=
  tokensAll_layout (Q := fun t => '\n' ∉ t.toList) (by decide) parent n

end Node

end TreeLint
