import Mathlib
import TreeLint.Proofs.Locality
import TreeLint.Proofs.MachineWords

namespace TreeLint

/-!
# The lines of a printed document

* `print_lineEnds`: no line of the output ends in a space or a tab, whatever is printed and on
  whatever page; only the last line may.
* `indentLines` puts an indentation after every line feed that another one does not follow at once.
* `printOn_deeper`: a document that is printed one level deeper has the same lines, indented by one
  unit more in this way.

Both follow from `Document.toList_text_printOn`: printing is writing the characters of all strokes
and trimming once. One level deeper a unit stands after *every* line feed before trimming
(`flatMap_chars_deeper`). Trimming takes it away again where the line is empty
(`trimLines_flatMap_indentAfter`). What is computed in machine words is the same text
(`computes_printOn?`).
-/

variable {columns : Char → Nat} {o : PrintOptions} {indent : Nat} {mode : Mode}

/-! ### The ends of lines -/

/-- A text is trimmed if the character before a line feed is never a blank. -/
theorem trimmed_iff {cs : List Char} :
    Trimmed cs ↔ ∀ before c after, cs = before ++ c :: '\n' :: after → c ≠ ' ' ∧ c ≠ '\t' := by
  have hblank : ∀ c : Char, isGap c = false ↔ c ≠ ' ' ∧ c ≠ '\t' := by simp [isGap]
  constructor
  · rintro h before c after rfl
    have hpair := List.isChain_cons_cons.mp (List.IsChain.right_of_append h)
    exact (hblank c).mp (hpair.1 rfl)
  · intro h
    induction cs with
    | nil => exact .nil
    | cons c cs ih =>
      refine List.isChain_cons.mpr ⟨fun b hb hline => ?_, ih fun before c' after hcs => ?_⟩
      · obtain ⟨after, rfl⟩ := List.head?_eq_some_iff.mp (hline ▸ hb)
        exact (hblank c).mpr (h [] c after rfl)
      · exact h (c :: before) c' after (by rw [hcs, List.cons_append])

/-- **No line ends in a blank.** In the text of a document no line feed comes directly after a space
    or a tab, also if it is computed in machine words. On any page, at any indentation and in any
    mode a document leaves no such line behind if there was none before it. -/
theorem print_lineEnds (o : PrintOptions) (d : Document) (hd : d.TokensFreeOf '\n') :
    (∀ before c after, (d.print o).toList = before ++ c :: '\n' :: after → c ≠ ' ' ∧ c ≠ '\t') ∧
      (∀ s, d.print? o = .ok s →
        ∀ before c after, s.toList = before ++ c :: '\n' :: after → c ≠ ' ' ∧ c ≠ '\t') ∧
      ∀ (columns : Char → Nat) (indent : Nat) (mode : Mode) (p : Page),
        Trimmed p.text.toList → Trimmed (d.printOn columns o indent mode p).text.toList := by
  have hpage : ∀ (columns : Char → Nat) (indent : Nat) (mode : Mode) (p : Page),
      Trimmed p.text.toList → Trimmed (d.printOn columns o indent mode p).text.toList := by
    intro columns indent mode p hp
    rw [Document.toList_text_printOn hd hp]
    exact trimmed_trimLines _
  have hends := trimmed_iff.mp (hpage Text.charWidth 0 .free Page.blank trimmed_blank)
  refine ⟨hends, fun s hs => ?_, hpage⟩
  rw [computes_print? o d s hs]
  exact hends

/-- Blanks of every origin at the ends of lines: of a text, of a token, a space that is not broken
    and the indentation of an empty line. -/
def blankEnds : Document :=
  .concat [.text "a \t\n \n", .token "b ", .space,
    .groupOf 2 [.lineBreak, .space, .text "c\t", .lineBreak, .text " "]]

/-- None of the blanks is left but those of the last line. -/
theorem print_blankEnds :
    blankEnds.print ⟨80, 2, false⟩ = "a\n\nb\n\n    c\n     " ∧
      ∀ before c after, "a\n\nb\n\n    c\n     ".toList = before ++ c :: '\n' :: after →
        c ≠ ' ' ∧ c ≠ '\t' := by
  have htext : blankEnds.print ⟨80, 2, false⟩ = "a\n\nb\n\n    c\n     " := by decide +kernel
  have hends := print_lineEnds ⟨80, 2, false⟩ blankEnds (by simp [blankEnds, Document.groupOf])
  exact ⟨htext, htext ▸ hends.1⟩

/-! ### Indenting lines -/

/-- The characters of one level of indentation. -/
def indentUnit (o : PrintOptions) : List Char :=
  if o.useTabs then ['\t'] else List.replicate o.indentWidth ' '

/-- The characters with `unit` after every line feed that is not directly followed by another. -/
def indentLines (unit : List Char) : List Char → List Char
  | [] => []
  | c :: cs =>
    if c = '\n' ∧ cs.head? ≠ some '\n' then c :: (unit ++ indentLines unit cs)
    else c :: indentLines unit cs

/-- The text with one level of indentation more. -/
def deeperText (o : PrintOptions) (s : String) : String :=
  String.ofList (indentLines (indentUnit o) s.toList)

/-- A character with `unit` after it if it is a line feed. -/
def indentAfter (unit : List Char) (c : Char) : List Char := if c = '\n' then c :: unit else [c]

/-- A level of indentation is made of blanks. -/
theorem isGap_of_mem_indentUnit {c : Char} (h : c ∈ indentUnit o) : isGap c = true := by
  unfold indentUnit at h
  split_ifs at h
  · rw [List.mem_singleton.mp h]
    rfl
  · rw [List.eq_of_mem_replicate h]
    rfl

/-- One more level of indentation is one more unit. -/
theorem indentation_succ (o : PrintOptions) (levels : Nat) :
    Page.indentation o (levels + 1) = indentUnit o ++ Page.indentation o levels := by
  unfold Page.indentation indentUnit
  by_cases htabs : o.useTabs = true
  · simp [htabs, List.replicate_succ]
  · have hwidth : (levels + 1) * o.indentWidth = o.indentWidth + levels * o.indentWidth := by ring
    simp only [htabs, Bool.false_eq_true, if_false, hwidth, List.replicate_add]

/-- Indentation comes after line feeds only, so the first character stays. -/
theorem head?_indentLines (unit cs : List Char) : (indentLines unit cs).head? = cs.head? := by
  cases cs with
  | nil => rfl
  | cons c cs =>
    rw [indentLines]
    split_ifs <;> rfl

/-- Nothing is put after a character that is no line feed. -/
theorem indentLines_of_ne {c : Char} (hc : c ≠ '\n') (unit cs : List Char) :
    indentLines unit (c :: cs) = c :: indentLines unit cs := by
  rw [indentLines, if_neg fun h => hc h.1]

/-- Blanks before a text go if it begins with a line feed, and stay otherwise. -/
theorem foldr_trimStep_gaps {gaps : List Char} (h : ∀ c ∈ gaps, isGap c = true) (cs : List Char) :
    gaps.foldr trimStep cs = if cs.head? = some '\n' then cs else gaps ++ cs := by
  induction gaps with
  | nil => simp
  | cons c gaps ih =>
    have hgap := h c List.mem_cons_self
    rw [List.foldr_cons, ih fun c' hc' => h c' (List.mem_cons_of_mem c hc'), trimStep]
    by_cases hline : cs.head? = some '\n'
    · simp [hline, hgap]
    · -- The next character is a blank of the row or the first of the text: no line feed.
      have hhead : (gaps ++ cs).head? ≠ some '\n' := by
        cases gaps with
        | nil => exact hline
        | cons c' gaps =>
          have hgap' := h c' (List.mem_cons_of_mem c List.mem_cons_self)
          rintro hc'
          rw [Option.some.inj hc'] at hgap'
          cases hgap'
      rw [if_neg hline, if_neg hline, if_neg fun h => hhead h.2, List.cons_append]

/-- **Indenting commutes with trimming.** A unit after every line feed is trimmed away exactly where
    the next line is empty. -/
theorem trimLines_flatMap_indentAfter {unit : List Char} (hunit : ∀ c ∈ unit, isGap c = true)
    (cs : List Char) :
    trimLines (cs.flatMap (indentAfter unit)) = indentLines unit (trimLines cs) := by
  induction cs with
  | nil => rfl
  | cons c cs ih =>
    rw [List.flatMap_cons, trimLines_append, ih, trimLines_cons]
    by_cases hc : c = '\n'
    · -- A line feed stays, and the unit after it meets the next line.
      subst hc
      have hstay : ∀ ds, trimStep '\n' ds = '\n' :: ds := fun ds => if_neg (by simp [isGap])
      rw [indentAfter, if_pos rfl, List.foldr_cons, hstay, hstay, foldr_trimStep_gaps hunit,
        head?_indentLines, indentLines]
      by_cases hline : (trimLines cs).head? = some '\n' <;> simp [hline]
    · -- Any other character is kept or dropped on both sides.
      rw [indentAfter, if_neg hc, List.foldr_cons, List.foldr_nil, trimStep, trimStep,
        head?_indentLines]
      split_ifs
      · rfl
      · rw [indentLines_of_ne hc]

/-! ### Strokes one level deeper -/

/-- No text of the document holds the character `x`. -/
def Document.TextsFreeOf (x : Char) (d : Document) : Prop :=
  ∀ t, Document.text t ∈ d.parts → x ∉ t.toList

/-- The stroke with one level of indentation more, if it is a line break. -/
def Stroke.deeper : Stroke → Stroke
  | glyph c width => glyph c width
  | newLine levels => newLine (levels + 1)

/-- The characters of a text that has one line stay as they are. -/
theorem Stroke.map_deeper_ofTextChar {tab : Nat} {c : Char} (hc : c ≠ '\n') :
    (ofTextChar columns tab c).map deeper = ofTextChar columns tab c := by
  rcases ofTextChar_cases columns tab c with ⟨hline, -⟩ | ⟨-, h⟩ | ⟨-, width, h⟩
  · exact absurd hline hc
  · rw [h]
    rfl
  · rw [h]
    rfl

/-- **The decisions of the printer do not depend on the indentation.** One level deeper the strokes
    are the same, each line break with one level more. -/
theorem Document.strokes_succ {d : Document} (h : d.TextsFreeOf '\n') :
    d.strokes columns o (indent + 1) mode
      = (d.strokes columns o indent mode).map Stroke.deeper := by
  induction d generalizing indent mode with
  | token t => simp [strokes, Stroke.deeper]
  | text t =>
    -- A line feed of a text starts a line that is never indented; there is none.
    have hline : '\n' ∉ t.toList := h t (by simp [parts])
    rw [strokes, strokes, List.map_flatMap]
    refine (List.flatMap_congr fun c hc => ?_).symm
    exact Stroke.map_deeper_ofTextChar (ne_of_mem_of_not_mem hc hline)
  | space =>
    rw [strokes, strokes, List.map_singleton]
    split_ifs <;> rfl
  | lineBreak => rfl
  | group d levels ih =>
    have hd : d.TextsFreeOf '\n' := fun t ht => h t (mem_parts_group.mpr (.inr ht))
    rw [strokes, strokes, Nat.add_right_comm, ih hd]
  | concat ds ih =>
    rw [strokes, strokes, strokesAll_eq_flatMap, strokesAll_eq_flatMap, List.map_flatMap]
    refine List.flatMap_congr fun d hd => ih d hd ?_
    exact fun t ht => h t (mem_parts_concat.mpr (.inr ⟨d, hd, ht⟩))

/-- One level deeper a stroke adds a unit after its line feed. -/
theorem Stroke.chars_deeper {s : Stroke} (hs : s.IsPlain) :
    s.deeper.chars o = (s.chars o).flatMap (indentAfter (indentUnit o)) := by
  cases s with
  | glyph c width =>
    have hc : c ≠ '\n' := hs
    simp [deeper, chars, indentAfter, hc]
  | newLine levels =>
    -- The blanks of the old indentation are no line feeds and stay as they are.
    have hold : (Page.indentation o levels).flatMap (indentAfter (indentUnit o))
        = Page.indentation o levels := by
      calc (Page.indentation o levels).flatMap (indentAfter (indentUnit o))
          = (Page.indentation o levels).flatMap fun c => [c] :=
            List.flatMap_congr fun c hc => if_neg fun hline => by
              have hgap := Page.isGap_of_mem_indentation hc
              simp [hline, isGap] at hgap
        _ = Page.indentation o levels := List.flatMap_singleton' _
    rw [deeper, chars, chars, List.flatMap_cons, hold, indentation_succ, indentAfter, if_pos rfl,
      List.cons_append]

/-- Strokes that go one level deeper draw one unit more after every line feed, also before empty
    lines. -/
theorem flatMap_chars_deeper {ss : List Stroke} (hss : ∀ s ∈ ss, s.IsPlain) :
    (ss.map Stroke.deeper).flatMap (Stroke.chars o)
      = (ss.flatMap (Stroke.chars o)).flatMap (indentAfter (indentUnit o)) := by
  rw [List.flatMap_map, List.flatMap_assoc]
  exact List.flatMap_congr fun s hs => Stroke.chars_deeper (hss s hs)

/-- **Moving a document deeper indents its lines and does nothing else to them.** The first line
    and the empty lines before another one stay as they are, and no line is broken in another
    place. In machine words the same holds of the two pages. -/
theorem printOn_deeper (columns : Char → Nat) (o : PrintOptions) (indent : Nat) (mode : Mode)
    (d : Document) (htokens : d.TokensFreeOf '\n') (htexts : d.TextsFreeOf '\n') :
    (d.printOn columns o (indent + 1) mode Page.blank).text
        = deeperText o (d.printOn columns o indent mode Page.blank).text ∧
      ∀ p p', d.printOn? columns o indent mode Page.blank = .ok p →
        d.printOn? columns o (indent + 1) mode Page.blank = .ok p' →
        p'.text = deeperText o p.text := by
  have hblank : Page.blank.text.toList = [] := rfl
  have hplain : ∀ s ∈ d.strokes columns o indent mode, s.IsPlain :=
    fun s hs => Document.isPlain_of_mem_strokes htokens hs
  have htext : (d.printOn columns o (indent + 1) mode Page.blank).text
      = deeperText o (d.printOn columns o indent mode Page.blank).text := by
    rw [← String.toList_inj, deeperText, String.toList_ofList,
      Document.toList_text_printOn htokens trimmed_blank,
      Document.toList_text_printOn htokens trimmed_blank, hblank, List.nil_append, List.nil_append,
      Document.strokes_succ htexts, flatMap_chars_deeper hplain,
      trimLines_flatMap_indentAfter fun c hc => isGap_of_mem_indentUnit hc]
  refine ⟨htext, fun p p' hp hp' => ?_⟩
  rw [computes_printOn? d Page.blank p hp, computes_printOn? d Page.blank p' hp']
  exact htext

/-- A block with an empty line, a line of blanks and an empty line at its end. -/
def gappedBlock : Document :=
  .concat [.token "a", .groupOf 1 [.lineBreak, .text "b ", .lineBreak, .text " \t", .space,
    .groupOf 1 [.text "c", .space, .text "d"]], .lineBreak]

/-- With tabs: three lines are indented, one of them holds nothing but the indentation. -/
theorem printOn_deeper_gappedBlock :
    (gappedBlock.printOn Text.charWidth ⟨80, 2, true⟩ 0 .free .blank).text = "a\n\tb\n\n\tc d\n" ∧
      (gappedBlock.printOn Text.charWidth ⟨80, 2, true⟩ 1 .free .blank).text
        = "a\n\t\tb\n\n\t\tc d\n\t" := by
  have hflush : (gappedBlock.printOn Text.charWidth ⟨80, 2, true⟩ 0 .free .blank).text
      = "a\n\tb\n\n\tc d\n" := by decide +kernel
  refine ⟨hflush, ?_⟩
  rw [(printOn_deeper Text.charWidth ⟨80, 2, true⟩ 0 .free gappedBlock
    (by simp [gappedBlock, Document.groupOf])
    (by simp [Document.TextsFreeOf, gappedBlock, Document.groupOf, Document.parts,
      Document.partsAll])).1, hflush]
  decide +kernel

end TreeLint
