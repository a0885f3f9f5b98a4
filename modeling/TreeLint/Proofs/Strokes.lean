import Mathlib
import TreeLint.Layout.Printer
import TreeLint.Proofs.Document

namespace TreeLint

/-!
# Printing as a sequence of strokes

The printer decides and writes at the same time, but its decisions do not look at the page. Printing
therefore comes to two steps that can be studied apart.

* `Document.strokes` lays a document out: it gives the characters and the line breaks to be written,
  in order. It knows nothing of a page.
* `Page.draw` writes one stroke. Only here are blanks dropped before line breaks.
* `Document.printOn_eq_foldl`: printing is drawing the strokes one after another.
* `Page.toList_text_glyph` and `Page.toList_text_newLine` say how a stroke changes the text of a
  page.
-/

/-- One thing that is written on a page. -/
inductive Stroke where
  /-- A character that takes `width` columns. -/
  | glyph (c : Char) (width : Nat)
  /-- A line break; the new line is indented by `levels`. -/
  | newLine (levels : Nat)
  deriving DecidableEq

/-- Write a stroke. -/
def Page.draw (o : PrintOptions) (p : Page) : Stroke → Page
  | .glyph c width => p.put c width
  | .newLine levels => p.newLine o levels

/-- The strokes of a character of a text: one, or none for a carriage return. -/
def Stroke.ofTextChar (columns : Char → Nat) (tab : Nat) (c : Char) : List Stroke :=
  if c = '\n' then [newLine 0]
  else if c = '\r' then []
  else [glyph c (if c = '\t' then tab else columns c)]

/-- How a group around `d` is laid out when `mode` is that of the group around it. -/
def groupMode (columns : Char → Nat) (o : PrintOptions) (mode : Mode) (d : Document) : Mode :=
  if mode = .flat || fits columns o d then .flat else .broken

namespace Document

mutual

/-- The strokes of a document at an indentation of `indent` levels. -/
def strokes (columns : Char → Nat) (o : PrintOptions) (indent : Nat) (mode : Mode) :
    Document → List Stroke
  | token t => t.toList.map fun c => .glyph c c.utf8Size
  | text t => t.toList.flatMap (Stroke.ofTextChar columns o.indentWidth)
  | space => [if mode = .broken then .newLine indent else .glyph ' ' 1]
  | lineBreak => [.newLine indent]
  | concat ds => strokesAll columns o indent mode ds
  | group d levels => strokes columns o (indent + levels.toNat) (groupMode columns o mode d) d

/-- The strokes of documents one after another. -/
def strokesAll (columns : Char → Nat) (o : PrintOptions) (indent : Nat) (mode : Mode) :
    List Document → List Stroke
  | [] => []
  | d :: ds => strokes columns o indent mode d ++ strokesAll columns o indent mode ds

end

end Document

variable {columns : Char → Nat} {o : PrintOptions} {indent : Nat} {mode : Mode}

/-- The strokes of a row are those of its documents. -/
theorem Document.strokesAll_eq_flatMap (ds : List Document) :
    strokesAll columns o indent mode ds = ds.flatMap (strokes columns o indent mode) := by
  induction ds with
  | nil => rfl
  | cons d ds ih => rw [strokesAll, ih, List.flatMap_cons]

/-- The three kinds of characters of a text. -/
theorem Stroke.ofTextChar_cases (columns : Char → Nat) (tab : Nat) (c : Char) :
    c = '\n' ∧ ofTextChar columns tab c = [newLine 0] ∨
      c = '\r' ∧ ofTextChar columns tab c = [] ∨
      (c ≠ '\n' ∧ c ≠ '\r') ∧ ∃ width, ofTextChar columns tab c = [glyph c width] := by
  by_cases hline : c = '\n'
  · exact .inl ⟨hline, if_pos hline⟩
  · by_cases hreturn : c = '\r'
    · exact .inr (.inl ⟨hreturn, (if_neg hline).trans (if_pos hreturn)⟩)
    · exact .inr (.inr ⟨⟨hline, hreturn⟩, _, (if_neg hline).trans (if_neg hreturn)⟩)

/-! ### Printing is drawing strokes -/

/-- A token is written character by character; its bytes are those of its characters. -/
theorem Page.foldl_draw_token (p : Page) (cs : List Char) :
    (cs.map fun c => Stroke.glyph c c.utf8Size).foldl (draw o) p
      = { p with output := cs.reverse ++ p.output, column := p.column + String.utf8Len cs } := by
  induction cs generalizing p with
  | nil => rfl
  | cons c cs ih =>
    rw [List.map_cons, List.foldl_cons, ih]
    simp only [draw, put, List.reverse_cons, List.append_assoc, List.singleton_append,
      String.utf8Len_cons, Page.mk.injEq, true_and]
    omega

/-- Writing a character of a text is drawing its strokes. -/
theorem Page.putTextChar_eq_foldl (p : Page) (c : Char) :
    p.putTextChar columns o c
      = (Stroke.ofTextChar columns o.indentWidth c).foldl (draw o) p := by
  unfold putTextChar Stroke.ofTextChar
  split_ifs <;> rfl

/-- Writing a text is drawing the strokes of its characters. -/
theorem Page.putText_eq_foldl (p : Page) (t : String) :
    p.putText columns o t
      = (t.toList.flatMap (Stroke.ofTextChar columns o.indentWidth)).foldl (draw o) p := by
  unfold putText
  induction t.toList generalizing p with
  | nil => rfl
  | cons c cs ih =>
    rw [List.foldl_cons, ih, putTextChar_eq_foldl, List.flatMap_cons, List.foldl_append]

/-- **Printing is drawing strokes**, which do not depend on the page. -/
theorem Document.printOn_eq_foldl (d : Document) (p : Page) :
    d.printOn columns o indent mode p =
      (d.strokes columns o indent mode).foldl (Page.draw o) p := by
  induction d generalizing indent mode p with
  | token t =>
    rw [printOn, strokes, Page.foldl_draw_token, String.utf8Len_toList, Page.putToken]
  | text t => rw [printOn, strokes, Page.putText_eq_foldl]
  | space =>
    rw [printOn, strokes]
    split_ifs <;> rfl
  | lineBreak => rfl
  | group d levels ih => exact ih p
  | concat ds ih =>
    rw [printOn, strokes]
    induction ds generalizing p with
    | nil => rfl
    | cons d ds ihds =>
      rw [printAllOn, strokesAll, List.foldl_append, ih d List.mem_cons_self]
      exact ihds (fun d' hd' => ih d' (List.mem_cons_of_mem d hd')) _

/-! ### The text of a page -/

/-- The characters that are dropped before a line break. -/
def isGap (c : Char) : Bool := c = ' ' || c = '\t'

/-- The characters that a stroke adds to a text. -/
def Stroke.chars (o : PrintOptions) : Stroke → List Char
  | glyph c _ => [c]
  | newLine levels => '\n' :: Page.indentation o levels

/-- Indentation is made of blanks. -/
theorem Page.isGap_of_mem_indentation {levels : Nat} {c : Char} (h : c ∈ indentation o levels) :
    isGap c = true := by
  unfold indentation at h
  split_ifs at h with htabs
  · rw [List.eq_of_mem_replicate h]
    rfl
  · rw [List.eq_of_mem_replicate h]
    rfl

/-- The characters of a page are kept from the last to the first. -/
theorem Page.toList_text (p : Page) : p.text.toList = p.output.reverse := by
  rw [text, String.toList_ofList]

/-- A character is added to the text. -/
theorem Page.toList_text_glyph (p : Page) (c : Char) (width : Nat) :
    (p.draw o (.glyph c width)).text.toList = p.text.toList ++ [c] := by
  rw [toList_text, toList_text, draw, put, List.reverse_cons]

/-- A line break takes the blanks at the end of the line away and then adds to the text. -/
theorem Page.toList_text_newLine (p : Page) (levels : Nat) :
    (p.draw o (.newLine levels)).text.toList
      = p.text.toList.rdropWhile isGap ++ (Stroke.newLine levels).chars o := by
  have hindentation : (indentation o levels).reverse = indentation o levels := by
    unfold indentation
    split_ifs <;> exact List.reverse_replicate
  have hgap : (fun c => decide (c = ' ') || decide (c = '\t')) = isGap := rfl
  rw [toList_text, toList_text, draw, newLine, List.reverse_append, List.reverse_cons, hindentation,
    hgap, List.rdropWhile_reverse, Stroke.chars, List.append_assoc, List.singleton_append]

end TreeLint
