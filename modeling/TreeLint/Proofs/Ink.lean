import Mathlib
import TreeLint.Proofs.MachineWords
import TreeLint.Proofs.Strokes

namespace TreeLint

/-!
# Printing only moves white space

The ink of a text is what is left of it without spaces, tabs, line feeds and carriage returns. The
layout of a document has no influence on it.

* `ink_foldl_draw`: strokes add their ink to that of the page. A line break has none, and what it
  takes away has none.
* `Document.ink_strokes`: the strokes of a document have the ink of its flat text, in every mode and
  at every indentation.
* `layout_keeps_ink` is the result for documents and for trees.
-/

/-- The characters that the printer adds, moves and drops. -/
def isWhite (c : Char) : Bool := c = ' ' || c = '\t' || c = '\n' || c = '\r'

/-- The characters that are not white. -/
def ink (cs : List Char) : List Char := cs.filter fun c => !isWhite c

@[simp] theorem ink_nil : ink [] = [] := rfl

@[simp] theorem ink_append (cs ds : List Char) : ink (cs ++ ds) = ink cs ++ ink ds :=
  List.filter_append cs ds

/-- The ink of pieces in a row is the ink of each of them. -/
theorem ink_flatMap {α : Type} (f : α → List Char) (xs : List α) :
    ink (xs.flatMap f) = xs.flatMap fun x => ink (f x) := by
  induction xs with
  | nil => rfl
  | cons x xs ih => rw [List.flatMap_cons, ink_append, ih, List.flatMap_cons]

/-- White characters have no ink. -/
theorem ink_eq_nil {cs : List Char} (h : ∀ c ∈ cs, isWhite c = true) : ink cs = [] :=
  List.filter_eq_nil_iff.mpr fun c hc => by simp [h c hc]

/-- What is dropped at the end of a line is white. -/
theorem isWhite_of_isGap {c : Char} (h : isGap c = true) : isWhite c = true := by
  unfold isGap at h
  unfold isWhite
  simp only [h, Bool.true_or]

/-! ### Pages -/

/-- What is dropped at the end of a line has no ink. -/
theorem ink_rdropWhile (cs : List Char) : ink (cs.rdropWhile isGap) = ink cs := by
  induction cs using List.reverseRecOn with
  | nil => rfl
  | append_singleton cs c ih =>
    by_cases hc : isGap c = true
    · have hwhite : ink [c] = [] := ink_eq_nil fun c' hc' =>
        List.mem_singleton.mp hc' ▸ isWhite_of_isGap hc
      rw [List.rdropWhile_concat_pos isGap cs c hc, ih, ink_append, hwhite, List.append_nil]
    · rw [List.rdropWhile_concat_neg isGap cs c hc]

variable {columns : Char → Nat} {o : PrintOptions} {indent : Nat} {mode : Mode}

/-- A line break has no ink. -/
@[simp] theorem ink_chars_newLine (levels : Nat) : ink ((Stroke.newLine levels).chars o) = [] := by
  refine ink_eq_nil fun c hc => ?_
  rcases List.mem_cons.mp hc with rfl | hc
  · rfl
  · exact isWhite_of_isGap (Page.isGap_of_mem_indentation hc)

/-- A stroke adds its ink. -/
theorem ink_draw (p : Page) (s : Stroke) :
    ink (p.draw o s).text.toList = ink p.text.toList ++ ink (s.chars o) := by
  cases s with
  | glyph c width => rw [Page.toList_text_glyph, ink_append, Stroke.chars]
  | newLine levels => rw [Page.toList_text_newLine, ink_append, ink_rdropWhile]

/-- Strokes add their ink, in order. -/
theorem ink_foldl_draw (p : Page) (ss : List Stroke) :
    ink (ss.foldl (Page.draw o) p).text.toList
      = ink p.text.toList ++ ink (ss.flatMap (Stroke.chars o)) := by
  induction ss generalizing p with
  | nil => rw [List.foldl_nil, List.flatMap_nil, ink_nil, List.append_nil]
  | cons s ss ih =>
    rw [List.foldl_cons, ih, ink_draw, List.flatMap_cons, ink_append, List.append_assoc]

/-! ### Documents -/

/-- A character of a text keeps its ink: one that gives no stroke, or a line break, has none. -/
theorem ink_ofTextChar (tab : Nat) (c : Char) :
    ink ((Stroke.ofTextChar columns tab c).flatMap (Stroke.chars o)) = ink [c] := by
  rcases Stroke.ofTextChar_cases columns tab c with ⟨rfl, h⟩ | ⟨rfl, h⟩ | ⟨-, width, h⟩
  · rw [h, List.flatMap_singleton, ink_chars_newLine]
    rfl
  · rw [h]
    rfl
  · rw [h, List.flatMap_singleton, Stroke.chars]

/-- **The layout has no ink of its own.** -/
theorem Document.ink_strokes (d : Document) :
    ink ((d.strokes columns o indent mode).flatMap (Stroke.chars o)) = ink d.flat.toList := by
  -- In either mode a space is drawn without ink, so the modes of groups do not matter.
  induction d generalizing indent mode with
  | token t => simp [strokes, flat, List.flatMap_map, Stroke.chars]
  | text t =>
    rw [strokes, flat, List.flatMap_assoc, ink_flatMap]
    simp only [ink_ofTextChar]
    rw [← ink_flatMap, List.flatMap_singleton']
  | space =>
    rw [strokes, List.flatMap_singleton]
    split_ifs with hmode
    · rw [ink_chars_newLine]
      rfl
    · rfl
  | lineBreak =>
    rw [strokes, List.flatMap_singleton, ink_chars_newLine]
    rfl
  | group d levels ih => rw [strokes, ih, flat]
  | concat ds ih =>
    rw [strokes, strokesAll_eq_flatMap, List.flatMap_assoc, toList_flat_concat, ink_flatMap,
      ink_flatMap]
    exact List.flatMap_congr fun d hd => ih d hd

/-- However characters are measured, a document is printed with the ink of its flat text. -/
theorem Document.ink_printWith (columns : Char → Nat) (o : PrintOptions) (d : Document) :
    ink (d.printWith columns o).toList = ink d.flat.toList := by
  rw [printWith, printOn_eq_foldl, ink_foldl_draw, ink_strokes]
  rfl

/-- **Printing only moves white space.** A document is printed with the ink of its flat text, so two
    settings of the printer give texts of a tree that differ only in white space. It does not matter
    how wide characters are; `print` and `format` measure them by `Text.charWidth`. The same holds
    of the texts that are computed in machine words. -/
theorem layout_keeps_ink (columns : Char → Nat) :
    (∀ (o : PrintOptions) (d : Document),
      ink (d.printWith columns o).toList = ink d.flat.toList ∧
        ∀ s, d.printWith? columns o = .ok s → ink s.toList = ink d.flat.toList) ∧
      ∀ (o o' : PrintOptions) (tree : Node),
        ink (formatWith columns o tree).toList = ink (formatWith columns o' tree).toList ∧
          ∀ s s', formatWith? columns o tree = .ok s → formatWith? columns o' tree = .ok s' →
            ink s.toList = ink s'.toList := by
  have hformat : ∀ (o o' : PrintOptions) (tree : Node),
      ink (formatWith columns o tree).toList = ink (formatWith columns o' tree).toList := by
    intro o o' tree
    rw [formatWith, formatWith, Document.ink_printWith, Document.ink_printWith]
  refine ⟨fun o d => ⟨d.ink_printWith columns o, fun s hs => ?_⟩,
    fun o o' tree => ⟨hformat o o' tree, fun s s' hs hs' => ?_⟩⟩
  · rw [computes_printWith? columns o d s hs, Document.ink_printWith]
  · rw [computes_formatWith? columns o tree s hs, computes_formatWith? columns o' tree s' hs']
    exact hformat o o' tree

/-- An element with two attributes. -/
def twoAttributes : Node :=
  .ofPayload (.element "a" [⟨"href", some "#"⟩, ⟨"hidden", none⟩] true) []

/-- On a line of its own or on three, with wide tabs or without, the ink is that of
    `<ahref="#"hidden/>`. -/
theorem layout_keeps_ink_twoAttributes :
    format? ⟨80, 2, false⟩ twoAttributes = .ok "<a href=\"#\" hidden />" ∧
      format? ⟨10, 4, true⟩ twoAttributes = .ok "<a\n\thref=\"#\"\n\thidden />" ∧
      ink "<a href=\"#\" hidden />".toList = ink "<a\n\thref=\"#\"\n\thidden />".toList := by
  have hwide : format? ⟨80, 2, false⟩ twoAttributes = .ok "<a href=\"#\" hidden />" := by
    decide +kernel
  have hnarrow : format? ⟨10, 4, true⟩ twoAttributes = .ok "<a\n\thref=\"#\"\n\thidden />" := by
    decide +kernel
  exact ⟨hwide, hnarrow, ((layout_keeps_ink Text.charWidth).2 _ _ _).2 _ _ hwide hnarrow⟩

end TreeLint
