import Mathlib
import TreeLint.Proofs.Composition
import TreeLint.Proofs.LineWidth

namespace TreeLint

/-!
# Spaces and tokens of a layout

A space that may become a line break is meant to stand inside a group, which decides about it, and a
token is meant to be plain text on one line. Layouts of trees keep to both.

* `Document.looseSpaces` counts the spaces that are inside no group. They are what printing outside
  a group and printing in a broken group differ in: each of them makes one line end more
  (`lineEnds_printOn_broken`), and without them there is no difference
  (`looseSpaces_eq_zero_iff`).
* `Node.looseSpaces_layout`: the layout of a tree has no loose spaces.
* `IsPrintable`: the text is not empty and consists of printable ASCII characters. It can then be a
  token (`IsPrintable.token?_eq`).
* `layout_groups_spaces` states both about the layout of any tree, and what it means for printing.
-/

variable {columns : Char → Nat} {o : PrintOptions} {indent : Nat}

/-! ### Loose spaces -/

namespace Document

mutual

/-- The number of spaces that are inside no group. -/
def looseSpaces : Document → Nat
  | token _ => 0
  | text _ => 0
  | concat ds => looseSpacesAll ds
  | space => 1
  | lineBreak => 0
  | group _ _ => 0

/-- The number of spaces of several documents that are inside no group. -/
def looseSpacesAll : List Document → Nat
  | [] => 0
  | d :: ds => looseSpaces d + looseSpacesAll ds

end

@[simp] theorem looseSpaces_token (t : String) : (token t).looseSpaces = 0 := by
  rw [looseSpaces]

@[simp] theorem looseSpaces_text (t : String) : (text t).looseSpaces = 0 := by
  rw [looseSpaces]

@[simp] theorem looseSpaces_lineBreak : lineBreak.looseSpaces = 0 := by
  rw [looseSpaces]

/-- A space inside a group is not loose. -/
@[simp] theorem looseSpaces_group (d : Document) (levels : UInt8) :
    (group d levels).looseSpaces = 0 := by
  rw [looseSpaces]

/-- A row has no loose spaces exactly if none of its documents has one. -/
@[simp] theorem looseSpaces_concat_eq_zero_iff {ds : List Document} :
    (concat ds).looseSpaces = 0 ↔ ∀ d ∈ ds, d.looseSpaces = 0 := by
  rw [looseSpaces]
  induction ds with
  | nil => simp [looseSpacesAll]
  | cons d ds ih => rw [looseSpacesAll, Nat.add_eq_zero_iff, ih, List.forall_mem_cons]

/-- In a broken group each loose space ends a line that goes on outside of groups. -/
theorem countP_strokes_broken (d : Document) :
    (d.strokes columns o indent .broken).countP Stroke.endsLine
      = (d.strokes columns o indent .free).countP Stroke.endsLine + d.looseSpaces := by
  induction d with
  | token t | text t | space | lineBreak => rfl
  | group d levels ih =>
    -- A group decides by itself in both cases, and its spaces are not loose.
    rfl
  | concat ds ih =>
    rw [strokes, strokes, looseSpaces]
    induction ds with
    | nil => rfl
    | cons d ds ihds =>
      rw [strokesAll, strokesAll, looseSpacesAll, List.countP_append, List.countP_append,
        ih d List.mem_cons_self, ihds fun d' hd' => ih d' (List.mem_cons_of_mem d hd')]
      omega

/-- **A loose space is a line end in a broken group and none outside of groups.** -/
theorem lineEnds_printOn_broken (columns : Char → Nat) (o : PrintOptions) (indent : Nat)
    (d : Document) (p : Page) :
    lineEnds (d.printOn columns o indent .broken p).text
      = lineEnds (d.printOn columns o indent .free p).text + d.looseSpaces := by
  rw [printOn_eq_foldl, printOn_eq_foldl, Page.lineEnds_foldl_draw, Page.lineEnds_foldl_draw,
    countP_strokes_broken, Nat.add_assoc]

/-- The strokes of a document without loose spaces are the same in a broken group and outside of
    groups. -/
theorem strokes_broken_of_looseSpaces {d : Document} (h : d.looseSpaces = 0) :
    d.strokes columns o indent .broken = d.strokes columns o indent .free := by
  induction d with
  | token t | text t | lineBreak => rfl
  | space => cases h
  | group d levels ih => rfl
  | concat ds ih =>
    rw [strokes, strokes, strokesAll_eq_flatMap, strokesAll_eq_flatMap]
    exact List.flatMap_congr fun d hd => ih d hd (looseSpaces_concat_eq_zero_iff.mp h d hd)

/-- **Without loose spaces it does not count whether a document stands in a broken group or outside
    of groups**, and only then. -/
theorem looseSpaces_eq_zero_iff {d : Document} :
    d.looseSpaces = 0 ↔ ∀ (columns : Char → Nat) (o : PrintOptions) (indent : Nat) (p : Page),
      d.printOn columns o indent .free p = d.printOn columns o indent .broken p := by
  constructor
  · intro h columns o indent p
    rw [printOn_eq_foldl, printOn_eq_foldl, strokes_broken_of_looseSpaces h]
  · intro h
    have hends := lineEnds_printOn_broken Text.charWidth ⟨80, 2, false⟩ 0 d Page.blank
    rw [← h] at hends
    omega

/-- The same holds of printing in machine words, with the same overflows. -/
theorem printOn?_broken_of_looseSpaces {d : Document} (h : d.looseSpaces = 0) (p : Page) :
    d.printOn? columns o indent .free p = d.printOn? columns o indent .broken p := by
  induction d generalizing p with
  | token t | text t | lineBreak => rfl
  | space => cases h
  | group d levels ih => rfl
  | concat ds ih =>
    rw [looseSpaces_concat_eq_zero_iff] at h
    have hrow := printAllOn?_map (f := id) (fun d hd p => ih d hd (h d hd) p) p
    rw [List.map_id] at hrow
    rw [printOn?, printOn?, hrow]

end Document

/-! ### The spaces of a layout -/

/-- Having no loose spaces composes: spaces stand inside groups only. -/
theorem Node.composes_looseSpaces :
    Composes fun _ inside d => inside = false → d.looseSpaces = 0 where
  mark _ _ t _ _ := Document.looseSpaces_token t
  text _ _ t _ := Document.looseSpaces_text t
  lineBreak _ _ _ := Document.looseSpaces_lineBreak
  space _ h := nomatch h
  child _ _ _ _ _ h _ := h rfl
  concat _ _ _ h hfree := Document.looseSpaces_concat_eq_zero_iff.mpr fun d hd => h d hd hfree
  groupOf _ ds _ _ := Document.looseSpaces_group (.concat ds) 1

/-- **The layout of a tree has no loose spaces.** -/
theorem Node.looseSpaces_layout (parent : Option Kind) (n : Node) :
    (n.layout parent).looseSpaces = 0 :=
  composes_looseSpaces.layout n parent rfl

/-! ### The tokens of a layout -/

/-- The text is not empty and consists of printable ASCII characters. -/
def IsPrintable (t : String) : Prop := t ≠ "" ∧ ∀ c ∈ t.toList, ' ' ≤ c ∧ c ≤ '~'

instance (t : String) : Decidable (IsPrintable t) :=
  decidable_of_iff (t ≠ "" ∧ t.toList.all (fun c => ' ' ≤ c ∧ c ≤ '~') = true)
    (by simp [IsPrintable])

/-- A printable text can be a token. -/
theorem IsPrintable.token?_eq {t : String} (h : IsPrintable t) :
    Document.token? t = .ok (.token t) := by
  have hascii : t.toList.all (·.toNat < 128) = true := by
    rw [List.all_eq_true]
    intro c hc
    have hle : c.toNat ≤ 126 := (h.2 c hc).2
    exact decide_eq_true (by omega)
  have hplain : (t.toList.any fun c => c = '\n' || c = '\r' || c = '\t') = false := by
    rw [List.any_eq_false]
    intro c hc hbreak
    have hge : 32 ≤ c.toNat := (h.2 c hc).1
    simp only [Bool.or_eq_true, decide_eq_true_eq] at hbreak
    rcases hbreak with (rfl | rfl) | rfl <;> revert hge <;> decide
  rw [Document.token?, if_pos hascii, hplain]
  rfl

/-- All marks are printable. -/
theorem isPrintable_of_mem_marks : ∀ t ∈ Layout.marks, IsPrintable t := by decide

/-- **Layouts leave no space outside of groups.** In the layout of any tree, whatever its parent,
    every space is inside a group and every token is a printable text, so that no token is refused.
    Hence the layout is printed in the same way outside of groups and in a broken group, on any page
    and with any settings, also where a machine word overflows: no space is printed without a group
    that decides about it. -/
theorem layout_groups_spaces (n : Node) (parent : Option Kind) :
    (n.layout parent).looseSpaces = 0 ∧
    (∀ t, Document.token t ∈ (n.layout parent).parts →
      IsPrintable t ∧ Document.token? t = .ok (.token t)) ∧
    ∀ (columns : Char → Nat) (o : PrintOptions) (indent : Nat) (p : Page),
      (n.layout parent).printOn columns o indent .free p
          = (n.layout parent).printOn columns o indent .broken p ∧
        (n.layout parent).printOn? columns o indent .free p
          = (n.layout parent).printOn? columns o indent .broken p := by
  have hloose := n.looseSpaces_layout parent
  refine ⟨hloose, fun t ht => ?_, fun columns o indent p => ?_⟩
  · have hprintable := n.tokensAll_layout isPrintable_of_mem_marks parent t ht
    exact ⟨hprintable, hprintable.token?_eq⟩
  · exact ⟨Document.looseSpaces_eq_zero_iff.mp hloose columns o indent p,
      Document.printOn?_broken_of_looseSpaces hloose p⟩

end TreeLint
