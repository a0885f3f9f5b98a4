import Mathlib
import TreeLint.Proofs.Composition
import TreeLint.Proofs.Room

namespace TreeLint

/-!
# Formatting without overflow

How much room the layout of a tree takes is bounded by the tree itself and by the indentation.

* `Node.weight` counts the nodes, the attributes and the characters of a tree.
* `Node.extent_layout_le`: the layout takes no more than `6 * unit` columns and lines for each of
  them, where `unit` is the width of the widest character. A double quote in the value of an
  attribute is written with six characters.
* `Node.nestsWithin_layout`: the lines of the layout are indented by no more levels than the tree
  has.
* `format_total`: a tree is formatted without overflow when its weight times the indentation is
  small enough. It is this product that counts, for a text may be all tabs. A configuration sets
  no limit to the indentation, and without one the statement fails (`format_overflows`).
-/

open Document

/-! ### The weight of a tree -/

/-- The number of characters of a text that may be absent. -/
def lengthOf (s : Option String) : Nat := s.elim 0 String.length

/-- An attribute and its characters. -/
def Attribute.weight (a : Attribute) : Nat := 1 + a.name.length + lengthOf a.value

/-- The attributes of a payload and the characters of its texts. -/
def Payload.weight : Payload → Nat
  | document => 0
  | element tag attributes _ => tag.length + (attributes.map Attribute.weight).sum
  | text value => value.length
  | comment value => value.length
  | interface name => name.length
  | typeParameterList => 0
  | typeParameter name constraint default =>
    name.length + lengthOf constraint + lengthOf default
  | interfaceBody => 0
  | propertySignature name _ _ declaredType => name.length + lengthOf declaredType

namespace Node

mutual

/-- The number of nodes, attributes and characters of a tree. -/
def weight : Node → Nat
  | ⟨payload, _, cs⟩ => 1 + payload.weight + weightAll cs

/-- The number of nodes, attributes and characters of several trees. -/
def weightAll : List Node → Nat
  | [] => 0
  | c :: cs => weight c + weightAll cs

end

/-- A tree is heavier than it is high. -/
theorem height_lt_weight (n : Node) : n.height < n.weight := by
  induction n with
  | node payload span cs ih =>
    have hall : heightAll cs ≤ weightAll cs := by
      induction cs with
      | nil => exact le_rfl
      | cons c cs ihcs =>
        have hc := ih c List.mem_cons_self
        have hcs := ihcs fun d hd => ih d (List.mem_cons_of_mem c hd)
        rw [heightAll, weightAll]
        omega
    rw [height, weight]
    omega

end Node

/-! ### The extent of a layout -/

namespace Document

variable {unit : Nat}

/-- The extents of two rows add up. -/
theorem extentAll_append (ds es : List Document) :
    extentAll unit (ds ++ es) = extentAll unit ds + extentAll unit es := by
  induction ds with
  | nil => rw [List.nil_append, extentAll, Nat.zero_add]
  | cons d ds ih => rw [List.cons_append, extentAll, extentAll, ih, Nat.add_assoc]

/-- The extent of a row that is put together from pieces is the sum of theirs. -/
theorem extentAll_flatMap {α : Type} (f : α → List Document) (xs : List α) :
    extentAll unit (xs.flatMap f) = (xs.map fun x => extentAll unit (f x)).sum := by
  induction xs with
  | nil => rfl
  | cons x xs ih => rw [List.flatMap_cons, extentAll_append, ih, List.map_cons, List.sum_cons]

/-- The extent of a row is the sum of the extents of its documents. -/
theorem extentAll_map {α : Type} (f : α → Document) (xs : List α) :
    extentAll unit (xs.map f) = (xs.map fun x => (f x).extent unit).sum := by
  induction xs with
  | nil => rfl
  | cons x xs ih => rw [List.map_cons, extentAll, ih, List.map_cons, List.sum_cons]

@[simp] theorem extent_groupOf (levels : UInt8) (ds : List Document) :
    (groupOf levels ds).extent unit = extentAll unit ds := rfl

end Document

namespace Layout

variable {unit : Nat}

/-- Escaping makes a value six times as long at most: an entity has six characters. -/
theorem length_escapeQuotes_le (value : String) :
    (escapeQuotes value).length ≤ 6 * value.length := by
  unfold escapeQuotes
  rw [String.length_join, List.map_map, ← String.length_toList]
  induction value.toList with
  | nil => exact le_rfl
  | cons c cs ih =>
    have hc : (if c = '"' then "&quot;" else String.singleton c).length ≤ 6 := by
      split_ifs
      · decide
      · rw [String.length_singleton]
        decide
    rw [List.map_cons, List.sum_cons, List.length_cons, Function.comp_apply]
    omega

/-- An attribute with its quotes and its escaped value is shorter than six times its weight. The one
    in the weight of an attribute pays for the quotes. -/
theorem length_attributeText_lt (a : Attribute) : (attributeText a).length < 6 * a.weight := by
  obtain ⟨name, value⟩ := a
  cases value with
  | none =>
    simp only [attributeText, Attribute.weight, lengthOf, Option.elim_none]
    omega
  | some value =>
    have hescaped := length_escapeQuotes_le value
    have hquote : "='".length = 2 ∧ "'".length = 1 ∧ "=\"".length = 2 ∧ "\"".length = 1 := by decide
    simp only [attributeText, Attribute.weight, lengthOf, Option.elim_some]
    split_ifs <;> simp only [String.length_append] <;> omega

/-- The attributes of an element, each with a space before it. -/
theorem extentAll_attributes_le (hunit : 0 < unit) (attributes : List Attribute) :
    extentAll unit (attributes.flatMap fun a => [space, text (attributeText a)])
      ≤ 6 * ((attributes.map Attribute.weight).sum * unit) := by
  induction attributes with
  | nil => exact Nat.zero_le _
  | cons a attributes ih =>
    have ha : ((attributeText a).length + 1) * unit ≤ 6 * a.weight * unit :=
      Nat.mul_le_mul_right unit (length_attributeText_lt a)
    rw [Nat.succ_mul, Nat.mul_assoc] at ha
    rw [List.flatMap_cons, extentAll_append, List.map_cons, List.sum_cons, Nat.add_mul]
    simp only [extentAll, extent]
    omega

/-- The extent of the children of a node, with two columns or lines more for each of them to set it
    off from the others. -/
def extentOfChildren (unit : Nat) (children : List (Kind × Document)) : Nat :=
  (children.map fun c => c.2.extent unit + 2).sum

/-- Each child adds its extent and what sets it off. -/
theorem extentOfChildren_cons (c : Kind × Document) (children : List (Kind × Document)) :
    extentOfChildren unit (c :: children)
      = c.2.extent unit + 2 + extentOfChildren unit children := by
  rw [extentOfChildren, List.map_cons, List.sum_cons, extentOfChildren]

/-- Children that are written with no more than that between them. -/
theorem extentAll_flatMap_le (unit : Nat) {f : Kind × Document → List Document}
    (hf : ∀ c, extentAll unit (f c) ≤ c.2.extent unit + 2) (children : List (Kind × Document)) :
    extentAll unit (children.flatMap f) ≤ extentOfChildren unit children := by
  rw [extentAll_flatMap]
  exact List.sum_le_sum fun c _ => hf c

/-- Children that are written with nothing between them. -/
theorem extentAll_children_le (unit : Nat) (children : List (Kind × Document)) :
    extentAll unit (children.map (·.2)) ≤ extentOfChildren unit children := by
  rw [extentAll_map]
  exact List.sum_le_sum fun c _ => Nat.le_add_right _ 2

/-- Children that stand on lines of their own. -/
theorem extent_indentedLines_le (unit : Nat) (children : List (Kind × Document)) :
    (indentedLines (children.map (·.2))).extent unit ≤ extentOfChildren unit children := by
  rw [indentedLines, extent_groupOf, List.flatMap_map]
  refine extentAll_flatMap_le unit (fun c => ?_) children
  simp only [extentAll, extent]
  omega

/-- Children with a comma and a space between them. -/
theorem extentAll_separated_le (unit : Nat) (children : List (Kind × Document)) :
    extentAll unit (separated (children.map (·.2))) ≤ extentOfChildren unit children := by
  have hcomma : ",".utf8ByteSize = 1 := by decide
  induction children with
  | nil => exact le_rfl
  | cons c children ih =>
    cases children with
    | nil =>
      simp only [List.map_cons, List.map_nil, separated, extentAll, extentOfChildren, List.sum_cons,
        List.sum_nil]
      omega
    | cons c' children =>
      rw [extentOfChildren_cons]
      simp only [List.map_cons, separated, extentAll, extent, hcomma] at ih ⊢
      omega

/-- Trimming makes no text longer. -/
theorem length_trim_le (value : String) : (Text.trim value).length ≤ value.length := by
  unfold Text.trim Text.trimChars
  rw [String.length_ofList, List.length_reverse, ← String.length_toList]
  exact (List.length_dropWhile_le _ _).trans
    ((List.length_reverse).trans_le (List.length_dropWhile_le _ _))

/-- The marks of a comment take twelve columns at most, and its text is trimmed. -/
theorem extent_comment_le (hunit : 3 ≤ unit) (value : String) :
    (comment value).extent unit + 2 ≤ 6 * unit + 6 * (value.length * unit) := by
  have htrim := Nat.mul_le_mul_right unit (length_trim_le value)
  have hmarks : "<!---->".utf8ByteSize = 7 ∧ "<!-- ".utf8ByteSize = 5 ∧
      " -->".utf8ByteSize = 4 := by decide
  simp only [comment]
  split_ifs <;> simp only [extent, extentAll] <;> omega

/-- The tag of an element is written twice and its attributes once; the marks take less than what
    every node is allowed. -/
theorem extent_element_le (hunit : 3 ≤ unit) (tag : String) (attributes : List Attribute)
    (selfClosing : Bool) (children : List (Kind × Document)) :
    (element tag attributes selfClosing children).extent unit + 2
      ≤ 6 * unit + 6 * ((tag.length + (attributes.map Attribute.weight).sum) * unit)
        + extentOfChildren unit children := by
  have hattributes := extentAll_attributes_le (by omega : 0 < unit) attributes
  have hinline := extentAll_children_le unit children
  have hlines := extent_indentedLines_le unit children
  have hmarks : "<".utf8ByteSize = 1 ∧ " />".utf8ByteSize = 3 ∧ ">".utf8ByteSize = 1 ∧
      "</".utf8ByteSize = 2 := by decide
  rw [Nat.add_mul]
  simp only [element]
  split_ifs
  · simp only [extent, extentAll, extent_groupOf]
    omega
  · simp only [extent, extentAll, extent_groupOf, extentAll_append, List.cons_append]
    omega
  · simp only [extent, extentAll, extent_groupOf]
    omega

/-- A type parameter takes its texts and two words with spaces around them. -/
theorem extent_typeParameter_le (hunit : 3 ≤ unit) (name : String)
    (constraint default : Option String) :
    (typeParameter name constraint default).extent unit + 2
      ≤ 6 * unit + 6 * ((name.length + lengthOf constraint + lengthOf default) * unit) := by
  have hwords : "extends".utf8ByteSize = 7 ∧ "=".utf8ByteSize = 1 := by decide
  rw [Nat.add_mul, Nat.add_mul]
  cases constraint <;> cases default <;>
    simp [typeParameter, extent, extentAll, lengthOf, hwords] <;> omega

/-- A property takes its texts and at most four marks. -/
theorem extent_propertySignature_le (hunit : 3 ≤ unit) (name : String) (optional readonly : Bool)
    (declaredType : Option String) (parent : Option Kind) :
    (propertySignature name optional readonly declaredType parent).extent unit + 2
      ≤ 6 * unit + 6 * ((name.length + lengthOf declaredType) * unit) := by
  have hwords : "readonly ".utf8ByteSize = 9 ∧ "?".utf8ByteSize = 1 ∧ ": ".utf8ByteSize = 2 ∧
      ";".utf8ByteSize = 1 := by decide
  rw [Nat.add_mul]
  cases declaredType <;> simp only [propertySignature, lengthOf] <;> split_ifs <;>
    simp [extent, extentAll, hwords] <;> omega

/-- **A node takes as much room as it has weight**, apart from its children. The room is counted, so
    that each kind of node needs its own bound. -/
theorem extent_ofPayload_le (hunit : 3 ≤ unit) (parent : Option Kind) (payload : Payload)
    (children : List (Kind × Document)) :
    (ofPayload parent payload children).extent unit + 2
      ≤ 6 * unit + 6 * (payload.weight * unit) + extentOfChildren unit children := by
  -- Each kind has its own marks, and they take less than `6 * unit` columns.
  cases payload with
  | document =>
    have hrows := extentAll_flatMap_le unit (f := fun c => [c.2, lineBreak])
      (fun c => by simp only [extentAll, extent]; omega) children
    simp only [ofPayload, extent]
    omega
  | element tag attributes selfClosing =>
    exact extent_element_le hunit tag attributes selfClosing children
  | text value =>
    simp only [ofPayload, extent, Payload.weight]
    omega
  | comment value => exact (extent_comment_le hunit value).trans (Nat.le_add_right _ _)
  | interface name =>
    have hword : "interface ".utf8ByteSize = 10 := by decide
    have hbody : " ".utf8ByteSize = 1 := by decide
    have hrows := extentAll_flatMap_le unit
      (f := fun c => if c.1 = .interfaceBody then [token " ", c.2] else [c.2])
      (fun c => by split_ifs <;> simp only [extentAll, extent] <;> omega) children
    simp only [ofPayload, interface, extent, extentAll, Payload.weight]
    omega
  | typeParameterList =>
    have hmarks : "<".utf8ByteSize = 1 ∧ ">".utf8ByteSize = 1 := by decide
    have hrows := extentAll_separated_le unit children
    simp only [ofPayload, extent_groupOf, extentAll, extentAll_append, extent, List.cons_append]
    omega
  | typeParameter name constraint default =>
    exact (extent_typeParameter_le hunit name constraint default).trans (Nat.le_add_right _ _)
  | interfaceBody =>
    have hmarks : "\x7b\x7d".utf8ByteSize = 2 ∧ "\x7b".utf8ByteSize = 1 ∧
        "\x7d".utf8ByteSize = 1 := by decide
    have hlines := extent_indentedLines_le unit children
    simp only [ofPayload, interfaceBody]
    split_ifs <;> simp only [extent, extentAll] <;> omega
  | propertySignature name optional readonly declaredType =>
    exact (extent_propertySignature_le hunit name optional readonly declaredType parent).trans
      (Nat.le_add_right _ _)

/-! ### The groups of a layout -/

/-- A group of the layout adds one level. -/
theorem nestsWithin_groupOf {k : Nat} {ds : List Document} (h : ∀ d ∈ ds, d.NestsWithin k) :
    (groupOf 1 ds).NestsWithin (k + 1) :=
  .groupOf (by rw [Nat.add_comm]; rfl) (.concat h)

end Layout

/-! ### The layout of a tree -/

namespace Node

variable {unit : Nat}

/-- **The layout of a tree takes as much room as the tree has weight.** -/
theorem extent_layout_le (hunit : 3 ≤ unit) (parent : Option Kind) (n : Node) :
    (n.layout parent).extent unit + 2 ≤ 6 * (n.weight * unit) := by
  induction n generalizing parent with
  | node payload span cs ih =>
    have hchildren : Layout.extentOfChildren unit (layoutAll payload.kind cs)
        ≤ 6 * (weightAll cs * unit) := by
      induction cs with
      | nil => exact Nat.zero_le _
      | cons c cs ihcs =>
        have hc := ih c List.mem_cons_self (some payload.kind)
        have hcs := ihcs fun d hd => ih d (List.mem_cons_of_mem c hd)
        rw [layoutAll, Layout.extentOfChildren_cons, weightAll, Nat.add_mul, Nat.mul_add]
        exact Nat.add_le_add hc hcs
    have hnode := Layout.extent_ofPayload_le hunit parent payload (layoutAll payload.kind cs)
    rw [layout, weight, Nat.add_mul, Nat.add_mul]
    omega

/-- A node adds one level of indentation to its children, at most, and what stands in a group has
    one level less. -/
theorem composes_nestsWithin :
    Composes fun n inside d => d.NestsWithin (if inside then n.height else n.height + 1) where
  mark _ _ t _ := .token t
  text _ _ t := .text t
  lineBreak _ _ := .lineBreak
  space _ := .space
  child n inside m hm d hd := by
    have hheight : m.height < n.height := by
      obtain ⟨payload, span, cs⟩ := n
      exact height_lt_heightAll hm
    refine hd.mono ?_
    cases inside
    · exact Nat.succ_le_succ hheight.le
    · exact hheight
  concat _ _ _ h := .concat h
  groupOf _ _ h := Layout.nestsWithin_groupOf h

/-- The line breaks of the layout are indented by no more levels than the tree has. -/
theorem nestsWithin_layout (parent : Option Kind) (n : Node) :
    (n.layout parent).NestsWithin (n.height + 1) :=
  composes_nestsWithin.layout n parent

end Node

/-! ### Formatting -/

/-- No character is wider than three columns. -/
theorem Text.charWidth_le (c : Char) : Text.charWidth c ≤ 3 := by
  unfold Text.charWidth
  dsimp only
  split_ifs <;> decide

/-- A tree that is light for the indentation has room on a blank page. -/
theorem formatWith?_of_weight_le {columns : Char → Nat} (hcolumns : ∀ x, columns x ≤ 3) {c : Config}
    {tree : Node} (h : 6 * (tree.weight * (c.indentWidth + 3)) ≤ 2 ^ 63) :
    formatWith? columns c.printOptions tree = .ok (formatWith columns c.printOptions tree) := by
  have hword : Config.wordSize = 2 ^ 64 := by norm_num [Config.wordSize]
  have hchars : CharsWithin columns c.printOptions (c.indentWidth + 3) :=
    ⟨by omega, Nat.le_add_right _ _, fun x => (hcolumns x).trans (Nat.le_add_left _ _)⟩
  have hextent := tree.extent_layout_le (Nat.le_add_left 3 c.indentWidth) none
  have hheight := tree.height_lt_weight
  -- The indentation of the deepest line is part of the bound, and so is the number of levels.
  have hmargin : (0 + (tree.height + 1)) * c.printOptions.indentWidth
      ≤ tree.weight * (c.indentWidth + 3) :=
    Nat.mul_le_mul (by omega) (Nat.le_add_right _ _)
  have hlevels : tree.weight ≤ tree.weight * (c.indentWidth + 3) :=
    Nat.le_mul_of_pos_right _ (by omega)
  have hroom : Page.blank.Room (tree.weight * (c.indentWidth + 3))
      ((tree.layout none).extent (c.indentWidth + 3) + 0) := by
    constructor
    · show max 0 _ + _ < _
      omega
    · show 1 + _ < _
      omega
  obtain ⟨hok, -⟩ := Document.printOn?_of_room hchars (tree.nestsWithin_layout none)
    (by omega) hmargin (by omega) hroom
  rw [formatWith?, Document.printWith?, hok]
  rfl

/-- Tabs overflow the column as soon as together they are too wide for a word. -/
theorem Page.foldlM_tabs_overflows {columns : Char → Nat} {o : PrintOptions} {n : Nat} {p : Page}
    (hp : p.column < Config.wordSize) (h : Config.wordSize ≤ p.column + n * o.indentWidth) :
    (List.replicate n '\t').foldlM (putTextChar? columns o) p = .error .add := by
  induction n generalizing p with
  | zero => omega
  | succ n ih =>
    have hstep : p.putTextChar? columns o '\t' = p.put? '\t' o.indentWidth := rfl
    rw [List.replicate_succ, List.foldlM_cons, hstep, put?]
    by_cases hadd : p.column + o.indentWidth < Config.wordSize
    · rw [Word.add_of_lt hadd]
      refine ih hadd ?_
      show Config.wordSize ≤ p.column + o.indentWidth + n * o.indentWidth
      rwa [Nat.succ_mul, Nat.add_comm (n * o.indentWidth), ← Nat.add_assoc] at h
    · rw [Word.add, if_neg hadd]
      rfl

/-- A text of `n` tabs. -/
def tabs (n : Nat) : Node := .ofPayload (.text (String.ofList (List.replicate n '\t'))) []

/-- However characters are measured, enough tabs overflow. -/
theorem formatWith?_tabs {columns : Char → Nat} {c : Config} {n : Nat}
    (h : 2 ^ 64 ≤ n * c.indentWidth) :
    formatWith? columns c.printOptions (tabs n) = .error .add := by
  have hword : Config.wordSize = 2 ^ 64 := by norm_num [Config.wordSize]
  have htabs : (tabs n).layout none = text (String.ofList (List.replicate n '\t')) := rfl
  rw [formatWith?, htabs, printWith?, printOn?, Page.putText?, String.toList_ofList,
    Page.foldlM_tabs_overflows]
  · rfl
  · show 0 < Config.wordSize
    omega
  · show Config.wordSize ≤ 0 + n * c.indentWidth
    omega

/-- **A tree is formatted without overflow if the indentation is small enough for its weight**,
    whatever characters measure, up to three columns. For trees of a weight below `2 ^ 32` every
    indentation below `2 ^ 28` is. No indentation but 0 is small enough for all trees: a tab is as
    wide as a level. -/
theorem format_total (c : Config) :
    (∀ tree : Node, 6 * (tree.weight * (c.indentWidth + 3)) ≤ 2 ^ 63 →
        format? c.printOptions tree = .ok (format c.printOptions tree) ∧
          ∀ columns : Char → Nat, (∀ x, columns x ≤ 3) →
            formatWith? columns c.printOptions tree
              = .ok (formatWith columns c.printOptions tree)) ∧
      ∀ n, 2 ^ 64 ≤ n * c.indentWidth →
        format? c.printOptions (tabs n) = .error .add ∧
          ∀ columns : Char → Nat, formatWith? columns c.printOptions (tabs n) = .error .add := by
  constructor
  · exact fun tree h => ⟨formatWith?_of_weight_le Text.charWidth_le h,
      fun columns hcolumns => formatWith?_of_weight_le hcolumns h⟩
  · exact fun n h => ⟨formatWith?_tabs h, fun columns => formatWith?_tabs h⟩

/-- Three elements, one inside the other. -/
def nestedBoxes : Node :=
  .ofPayload (.element "a" [] false)
    [.ofPayload (.element "b" [] false) [.ofPayload (.element "c" [] true) []]]

/-- Indentation with tabs that take `width` columns. -/
def tabbed (width : Nat) : Config := { indentWidth := width, useTabs := true }

/-- Levels of almost `2 ^ 57` columns are small enough for three elements, and `128` tabs of `2 ^
    57` columns are too wide. -/
theorem format_total_nestedBoxes :
    6 * (nestedBoxes.weight * ((tabbed (2 ^ 57 - 3)).indentWidth + 3)) ≤ 2 ^ 63 ∧
      format? (tabbed (2 ^ 57 - 3)).printOptions nestedBoxes
        = .ok (format (tabbed (2 ^ 57 - 3)).printOptions nestedBoxes) ∧
      formatWith? (fun _ => 1) (tabbed (2 ^ 57 - 3)).printOptions nestedBoxes
        = .ok (formatWith (fun _ => 1) (tabbed (2 ^ 57 - 3)).printOptions nestedBoxes) ∧
      format? (tabbed (2 ^ 57)).printOptions (tabs 128) = .error .add := by
  obtain ⟨hformat, hcolumns⟩ := (format_total (tabbed (2 ^ 57 - 3))).1 nestedBoxes (by decide)
  exact ⟨by decide, hformat, hcolumns _ fun _ => by decide,
    ((format_total _).2 128 (by decide)).1⟩

/-- A configuration may have every indentation, also one of which two levels are too wide for a
    machine word. -/
theorem format_overflows :
    (tabbed (2 ^ 63)).validate = .ok (tabbed (2 ^ 63)) ∧
      nestedBoxes.height ≤ (tabbed (2 ^ 63)).maxDepth ∧ nestedBoxes.weight = 6 ∧
      format? (tabbed (2 ^ 63)).printOptions nestedBoxes = .error .mul := by
  decide +kernel

end TreeLint
