import Mathlib
import TreeLint.Proofs.MachineWords
import TreeLint.Proofs.Strokes

namespace TreeLint

/-!
# Layout is local

What is printed later takes nothing away from what is printed before, except blanks at the end of
its last line. The strokes of a document do not depend on the page, so only drawing has to be looked
at.

* `trimLines` takes the blanks at the ends of lines out of a text, and `Trimmed` texts have none.
  The last line of a text does not end in it.
* Trimming can be put off: `trimLines_trimLines_append` and `trimLines_append_trimLines`.
* `toList_text_foldl_draw`: drawing strokes on a trimmed page is adding all their characters and
  trimming once.
* `printOn_eq_trimLineEnds` says this of documents.
* `Document.recedes_printOn?`: in machine words a document that is printed without overflow is so on
  every page on which less has been printed (`Page.Behind`).
* `print_concat` is the result for two documents in a row.
-/

/-! ### Blanks before line feeds -/

/-- The characters without the runs of spaces and tabs directly before a line feed. -/
def trimLines : List Char → List Char
  | [] => []
  | c :: cs =>
    if isGap c = true ∧ (cs.dropWhile isGap).head? = some '\n' then trimLines cs
    else c :: trimLines cs

/-- The text without spaces and tabs directly before a line feed. -/
def trimLineEnds (s : String) : String := String.ofList (trimLines s.toList)

/-- No line feed comes directly after a space or a tab. -/
def Trimmed (cs : List Char) : Prop := cs.IsChain fun a b => b = '\n' → isGap a = false

/-- Put a character in front of characters that are trimmed. -/
def trimStep (c : Char) (cs : List Char) : List Char :=
  if isGap c = true ∧ cs.head? = some '\n' then cs else c :: cs

/-- Trimming brings a line feed to the front exactly if only blanks stand before it. -/
theorem head?_trimLines (cs : List Char) :
    (trimLines cs).head? = some '\n' ↔ (cs.dropWhile isGap).head? = some '\n' := by
  induction cs with
  | nil => rfl
  | cons c cs ih =>
    rw [trimLines, List.dropWhile_cons]
    cases hgap : isGap c with
    | false => simp
    | true =>
      have hne : c ≠ '\n' := by
        rintro rfl
        cases hgap
      by_cases hline : (cs.dropWhile isGap).head? = some '\n'
      · simpa [hline] using ih.mpr hline
      · simpa [hline] using hne

/-- Trimming goes through a text from its end: a character is put in front of what is trimmed
    already. -/
theorem trimLines_cons (c : Char) (cs : List Char) :
    trimLines (c :: cs) = trimStep c (trimLines cs) := by
  rw [trimLines, trimStep]
  simp only [head?_trimLines]

/-- The second part is trimmed before the characters of the first are put in front of it. -/
theorem trimLines_append (cs ds : List Char) :
    trimLines (cs ++ ds) = cs.foldr trimStep (trimLines ds) := by
  induction cs with
  | nil => rfl
  | cons c cs ih => rw [List.cons_append, trimLines_cons, ih, List.foldr_cons]

/-- A blank at the end of a line can be taken away first or last. -/
theorem foldr_trimStep_trimLines (cs ds : List Char) :
    (trimLines cs).foldr trimStep ds = cs.foldr trimStep ds := by
  induction cs with
  | nil => rfl
  | cons c cs ih =>
    rw [trimLines_cons, trimStep, List.foldr_cons]
    split_ifs with h
    · obtain ⟨rest, hrest⟩ := List.head?_eq_some_iff.mp h.2
      have hhead : ((trimLines cs).foldr trimStep ds).head? = some '\n' := by
        rw [hrest, List.foldr_cons, trimStep, if_neg fun h => absurd h.1 Bool.noConfusion,
          List.head?_cons]
      rw [ih] at hhead ⊢
      rw [trimStep, if_pos ⟨h.1, hhead⟩]
    · rw [List.foldr_cons, ih]

/-- What comes first may be trimmed beforehand. -/
theorem trimLines_trimLines_append (cs ds : List Char) :
    trimLines (trimLines cs ++ ds) = trimLines (cs ++ ds) := by
  rw [trimLines_append, trimLines_append, foldr_trimStep_trimLines]

/-- Trimming twice is trimming once. -/
theorem trimLines_trimLines (cs : List Char) : trimLines (trimLines cs) = trimLines cs := by
  have h := trimLines_trimLines_append cs []
  rwa [List.append_nil, List.append_nil] at h

/-- What comes last may be trimmed beforehand. -/
theorem trimLines_append_trimLines (cs ds : List Char) :
    trimLines (cs ++ trimLines ds) = trimLines (cs ++ ds) := by
  rw [trimLines_append, trimLines_append, trimLines_trimLines]

/-- What is trimmed already does not change. -/
theorem Trimmed.trimLines_eq {cs : List Char} (h : Trimmed cs) : trimLines cs = cs := by
  induction cs with
  | nil => rfl
  | cons c cs ih =>
    obtain ⟨hhead, hrest⟩ := List.isChain_cons.mp h
    rw [trimLines_cons, ih hrest, trimStep, if_neg]
    rintro ⟨hgap, hline⟩
    rw [hhead '\n' hline rfl] at hgap
    cases hgap

/-- Trimming leaves no blank before a line feed. -/
theorem trimmed_trimLines (cs : List Char) : Trimmed (trimLines cs) := by
  induction cs with
  | nil => exact .nil
  | cons c cs ih =>
    rw [trimLines_cons, trimStep]
    split_ifs with h
    · exact ih
    · refine List.isChain_cons.mpr ⟨fun b hb hline => ?_, ih⟩
      exact Bool.eq_false_of_not_eq_true fun hgap => h ⟨hgap, hline ▸ hb⟩

/-- Blanks that come to stand before a line feed go. -/
theorem trimLines_append_gaps {cs gaps ds : List Char} (h : ∀ c ∈ gaps, isGap c = true) :
    trimLines (cs ++ (gaps ++ '\n' :: ds)) = trimLines (cs ++ '\n' :: ds) := by
  have hgaps : trimLines (gaps ++ '\n' :: ds) = trimLines ('\n' :: ds) := by
    induction gaps with
    | nil => rfl
    | cons c gaps ih =>
      rw [List.cons_append, trimLines_cons, ih fun c' hc' => h c' (List.mem_cons_of_mem c hc'),
        trimStep, if_pos ⟨h c List.mem_cons_self, by rw [head?_trimLines]; rfl⟩]
  rw [trimLines_append, hgaps, ← trimLines_append]

/-- A single line is trimmed. -/
theorem trimmed_of_not_mem {cs : List Char} (h : '\n' ∉ cs) : Trimmed cs := by
  induction cs with
  | nil => exact .nil
  | cons c cs ih =>
    refine List.isChain_cons.mpr ⟨fun b hb hline => ?_, ih (List.not_mem_of_not_mem_cons h)⟩
    exact absurd (List.mem_cons_of_mem c (List.mem_of_mem_head? (hline ▸ hb))) h

/-! ### Pages -/

variable {columns : Char → Nat} {o : PrintOptions} {indent : Nat} {mode : Mode}

/-- The stroke is not a line feed that is written like any other character. -/
def Stroke.IsPlain : Stroke → Prop
  | glyph c _ => c ≠ '\n'
  | newLine _ => True

/-- A line break is trimmed: it begins with a line feed, and its indentation has none. -/
theorem trimmed_chars_newLine (levels : Nat) : Trimmed ((Stroke.newLine levels).chars o) := by
  have hindentation : '\n' ∉ Page.indentation o levels := fun hmem =>
    absurd (Page.isGap_of_mem_indentation hmem) Bool.noConfusion
  exact List.isChain_cons.mpr ⟨fun b _ _ => rfl, trimmed_of_not_mem hindentation⟩

/-- A blank page is trimmed. -/
theorem trimmed_blank : Trimmed Page.blank.text.toList := by
  rw [Page.toList_text]
  exact .nil

/-- Drawing a stroke on a trimmed page is adding its characters and trimming. -/
theorem toList_text_draw {p : Page} (hp : Trimmed p.text.toList) {s : Stroke} (hs : s.IsPlain) :
    (p.draw o s).text.toList = trimLines (p.text.toList ++ s.chars o) := by
  cases s with
  | glyph c width =>
    have htrimmed : Trimmed (p.text.toList ++ [c]) := by
      refine List.isChain_append.mpr ⟨hp, .singleton c, fun a _ b hb hline => ?_⟩
      exact absurd ((Option.some.inj hb).trans hline) hs
    rw [Page.toList_text_glyph, Stroke.chars, htrimmed.trimLines_eq]
  | newLine levels =>
    have hsplit : p.text.toList.rdropWhile isGap ++ p.text.toList.rtakeWhile isGap
        = p.text.toList := List.rdropWhile_append_rtakeWhile
    -- The blanks that trimming would take away are the ones that the line break takes away.
    have hgaps : trimLines (p.text.toList.rdropWhile isGap ++ (Stroke.newLine levels).chars o)
        = trimLines (p.text.toList ++ (Stroke.newLine levels).chars o) := by
      have hall : ∀ c ∈ p.text.toList.rtakeWhile isGap, isGap c = true :=
        fun c hc => List.mem_rtakeWhile_imp hc
      rw [Stroke.chars, ← trimLines_append_gaps hall, ← List.append_assoc, hsplit]
    have hkept : Trimmed (p.text.toList.rdropWhile isGap) :=
      List.IsChain.left_of_append (hsplit.symm ▸ hp)
    have htrimmed :
        Trimmed (p.text.toList.rdropWhile isGap ++ (Stroke.newLine levels).chars o) := by
      refine List.isChain_append.mpr ⟨hkept, trimmed_chars_newLine levels, ?_⟩
      intro a ha b _ _
      obtain ⟨hne, rfl⟩ := List.mem_getLast?_eq_getLast ha
      exact Bool.eq_false_of_not_eq_true (List.rdropWhile_last_not isGap _ hne)
    rw [Page.toList_text_newLine, ← hgaps, htrimmed.trimLines_eq]

/-- **Trimming can be left to the end.** Drawing strokes on a trimmed page is adding all their
    characters and trimming once. -/
theorem toList_text_foldl_draw {p : Page} (hp : Trimmed p.text.toList) {ss : List Stroke}
    (hss : ∀ s ∈ ss, s.IsPlain) :
    (ss.foldl (Page.draw o) p).text.toList
      = trimLines (p.text.toList ++ ss.flatMap (Stroke.chars o)) := by
  induction ss generalizing p with
  | nil => rw [List.foldl_nil, List.flatMap_nil, List.append_nil, hp.trimLines_eq]
  | cons s ss ih =>
    have hdraw := toList_text_draw (o := o) hp (hss s List.mem_cons_self)
    have hrest : ∀ s' ∈ ss, s'.IsPlain := fun s' hs' => hss s' (List.mem_cons_of_mem s hs')
    rw [List.foldl_cons, ih (hdraw ▸ trimmed_trimLines _) hrest, hdraw, trimLines_trimLines_append,
      List.append_assoc, List.flatMap_cons]

/-! ### Documents -/

/-- The line feeds of texts become line breaks, and tokens hold none. -/
theorem Document.isPlain_of_mem_strokes {d : Document} (h : d.TokensFreeOf '\n') {s : Stroke}
    (hs : s ∈ d.strokes columns o indent mode) : s.IsPlain := by
  -- Line feeds come from tokens, which have none, and from texts, where they become line breaks.
  induction d generalizing indent mode with
  | token t =>
    obtain ⟨c, hc, rfl⟩ := List.mem_map.mp hs
    exact ne_of_mem_of_not_mem hc (tokensFreeOf_token.mp h)
  | text t =>
    obtain ⟨c, -, hs⟩ := List.mem_flatMap.mp hs
    rcases Stroke.ofTextChar_cases columns o.indentWidth c with
      ⟨-, hc⟩ | ⟨-, hc⟩ | ⟨⟨hne, -⟩, width, hc⟩
    · rw [hc, List.mem_singleton] at hs
      exact hs ▸ trivial
    · rw [hc] at hs
      cases hs
    · rw [hc, List.mem_singleton] at hs
      exact hs ▸ hne
  | space =>
    rw [strokes, List.mem_singleton] at hs
    rw [hs]
    split_ifs
    · trivial
    · exact (by decide : ' ' ≠ '\n')
  | lineBreak =>
    rw [strokes, List.mem_singleton] at hs
    exact hs ▸ trivial
  | group d levels ih => exact ih (tokensFreeOf_group.mp h) hs
  | concat ds ih =>
    rw [strokes, strokesAll_eq_flatMap] at hs
    obtain ⟨d, hd, hs⟩ := List.mem_flatMap.mp hs
    exact ih d hd (tokensFreeOf_concat.mp h d hd) hs

/-- A document adds its own characters to a trimmed page, and the page is trimmed after that. -/
theorem Document.toList_text_printOn {d : Document} (h : d.TokensFreeOf '\n') {p : Page}
    (hp : Trimmed p.text.toList) :
    (d.printOn columns o indent mode p).text.toList
      = trimLines
          (p.text.toList ++ (d.strokes columns o indent mode).flatMap (Stroke.chars o)) := by
  rw [printOn_eq_foldl, toList_text_foldl_draw hp fun s hs => isPlain_of_mem_strokes h hs]

/-- **A document is laid out on a page as it is by itself.** -/
theorem Document.printOn_eq_trimLineEnds {d : Document} (h : d.TokensFreeOf '\n') {p : Page}
    (hp : Trimmed p.text.toList) :
    (d.printOn columns o indent mode p).text
      = trimLineEnds (p.text ++ (d.printOn columns o indent mode Page.blank).text) := by
  have hblank : (d.printOn columns o indent mode Page.blank).text.toList
      = trimLines ((d.strokes columns o indent mode).flatMap (Stroke.chars o)) :=
    toList_text_printOn h trimmed_blank
  rw [← String.toList_inj, trimLineEnds, String.toList_ofList, String.toList_append, hblank,
    trimLines_append_trimLines, toList_text_printOn h hp]

/-! ### Pages in machine words -/

namespace Page

/-- Neither the line nor the column of the page is beyond that of `q`. -/
def Behind (p q : Page) : Prop := p.line ≤ q.line ∧ p.column ≤ q.column

/-- What is done to a page without overflow is done so to every page behind it, which stays
    behind. -/
def Recedes (f : Page → Except Overflow Page) : Prop :=
  ∀ p q q', p.Behind q → f q = .ok q' → ∃ p', f p = .ok p' ∧ p'.Behind q'

/-- One step after another. -/
theorem Recedes.bind {f g : Page → Except Overflow Page} (hf : Recedes f) (hg : Recedes g) :
    Recedes fun p => f p >>= g := by
  intro p q q' hp h
  obtain ⟨r, hr, hq⟩ := bind_eq_ok.mp h
  obtain ⟨p₁, hp₁, hr⟩ := hf p q r hp hr
  obtain ⟨p', hp', hq⟩ := hg p₁ r q' hr hq
  exact ⟨p', bind_eq_ok.mpr ⟨p₁, hp₁, hp'⟩, hq⟩

/-- What does not look at the page may come first. -/
theorem Recedes.after {α : Type} (x : Except Overflow α) {f : α → Page → Except Overflow Page}
    (hf : ∀ a, Recedes (f a)) : Recedes fun p => x >>= fun a => f a p := by
  intro p q q' hp h
  obtain ⟨a, ha, hq⟩ := bind_eq_ok.mp h
  obtain ⟨p', hp', hq⟩ := hf a p q q' hp hq
  exact ⟨p', bind_eq_ok.mpr ⟨a, ha, hp'⟩, hq⟩

theorem recedes_ok : Recedes .ok := by
  intro p q q' hp h
  cases h
  exact ⟨p, rfl, hp⟩

/-- Steps for the elements of a list, one after another. -/
theorem Recedes.foldlM {α : Type} {f : Page → α → Except Overflow Page}
    (hf : ∀ a, Recedes fun p => f p a) (as : List α) : Recedes fun p => as.foldlM f p := by
  induction as with
  | nil => exact recedes_ok
  | cons a as ih => exact (hf a).bind ih

/-- A column that is not beyond another takes the same width. -/
theorem add_of_le_of_add {a b width sum : Nat} (hle : a ≤ b) (h : Word.add b width = .ok sum) :
    Word.add a width = .ok (a + width) ∧ a + width ≤ sum := by
  obtain rfl := computes_add _ _ sum h
  have hlt : b + width < Config.wordSize := by
    by_contra hge
    rw [Word.add, if_neg hge] at h
    cases h
  exact ⟨Word.add_of_lt (by omega), by omega⟩

/-- Whatever moves the column on by a width and stays on the line. -/
theorem recedes_add {width : Nat} {f : Page → Nat → Page}
    (hf : ∀ p column, (f p column).line = p.line ∧ (f p column).column = column) :
    Recedes fun p => Word.add p.column width >>= fun column => .ok (f p column) := by
  intro p q q' hp h
  obtain ⟨column, hcolumn, hq⟩ := bind_eq_ok.mp h
  obtain ⟨hadd, hle⟩ := add_of_le_of_add hp.2 hcolumn
  cases hq
  refine ⟨_, bind_eq_ok.mpr ⟨_, hadd, rfl⟩, ?_, ?_⟩
  · rw [(hf _ _).1, (hf _ _).1]
    exact hp.1
  · rw [(hf _ _).2, (hf _ _).2]
    exact hle

/-- A character takes the same width in every column. -/
theorem recedes_put? (c : Char) (width : Nat) : Recedes fun p => p.put? c width :=
  recedes_add fun _ _ => ⟨rfl, rfl⟩

/-- So does a token. -/
theorem recedes_putToken? (t : String) : Recedes fun p => p.putToken? t :=
  recedes_add fun _ _ => ⟨rfl, rfl⟩

/-- The columns of a new line do not depend on the old one. -/
theorem recedes_newLine? (levels : Nat) : Recedes fun p => p.newLine? o levels := by
  intro p q q' hp h
  obtain ⟨line, hline, hq⟩ := bind_eq_ok.mp h
  obtain ⟨column, hcolumn, hq⟩ := bind_eq_ok.mp hq
  obtain ⟨hadd, hle⟩ := add_of_le_of_add hp.1 hline
  cases hq
  exact ⟨_, bind_eq_ok.mpr ⟨_, hadd, bind_eq_ok.mpr ⟨column, hcolumn, rfl⟩⟩, hle, le_rfl⟩

/-- A character of a text begins a line, takes its width or does nothing. -/
theorem recedes_putTextChar? (c : Char) : Recedes fun p => p.putTextChar? columns o c := by
  unfold putTextChar?
  split_ifs
  · exact recedes_newLine? 0
  · exact recedes_ok
  · exact recedes_put? c _
  · exact recedes_put? c _

/-- Strokes go on, they never go back to a line above. -/
theorem line_le_foldl_draw (ss : List Stroke) (p : Page) :
    p.line ≤ (ss.foldl (draw o) p).line := by
  induction ss generalizing p with
  | nil => exact le_rfl
  | cons s ss ih =>
    refine le_trans ?_ (ih (p.draw o s))
    cases s with
    | glyph c width => exact le_rfl
    | newLine levels => exact Nat.le_succ p.line

end Page

/-- **A document that is printed on a page is printed on every page behind it.** Its layout does not
    look at the page, so that only the counters can overflow. -/
theorem Document.recedes_printOn? (d : Document) :
    Page.Recedes fun p => d.printOn? columns o indent mode p := by
  induction d generalizing indent mode with
  | token t => exact Page.recedes_putToken? t
  | text t => exact Page.Recedes.foldlM Page.recedes_putTextChar? t.toList
  | space =>
    simp only [printOn?]
    split_ifs
    · exact Page.recedes_newLine? indent
    · exact Page.recedes_put? ' ' 1
  | lineBreak => exact Page.recedes_newLine? indent
  | group d levels ih =>
    simp only [printOn?]
    exact Page.Recedes.after _ fun deeper => Page.Recedes.after _ fun flat => ih
  | concat ds ih =>
    simp only [printOn?]
    induction ds with
    | nil => exact Page.recedes_ok
    | cons d ds ihds =>
      simp only [printAllOn?]
      exact (ih d List.mem_cons_self).bind
        (ihds fun d' hd' => ih d' (List.mem_cons_of_mem d hd'))

/-- **Layout is local.** Two documents in a row are printed as each of them by itself, apart from
    blanks that come to stand before a line feed. At any indentation and in any mode, what has been
    printed does not change how a later document is laid out. If the two are printed in machine
    words then so is each of them; the other way round they may overflow together. -/
theorem print_concat (o : PrintOptions) (a b : Document) (ha : a.TokensFreeOf '\n')
    (hb : b.TokensFreeOf '\n') :
    ((Document.concat [a, b]).print o = trimLineEnds (a.print o ++ b.print o) ∧
      ∀ (columns : Char → Nat) (i j : Nat) (m n : Mode),
        (b.printOn columns o j n (a.printOn columns o i m Page.blank)).text
          = trimLineEnds ((a.printOn columns o i m Page.blank).text
              ++ (b.printOn columns o j n Page.blank).text)) ∧
    (∀ s, (Document.concat [a, b]).print? o = .ok s →
      ∃ t u, a.print? o = .ok t ∧ b.print? o = .ok u ∧ s = trimLineEnds (t ++ u)) ∧
    ∀ (columns : Char → Nat) (i j : Nat) (m n : Mode) (p q : Page),
      a.printOn? columns o i m Page.blank = .ok p → b.printOn? columns o j n p = .ok q →
      ∃ r, b.printOn? columns o j n Page.blank = .ok r ∧
        q.text = trimLineEnds (p.text ++ r.text) := by
  have hlater : ∀ (columns : Char → Nat) (i j : Nat) (m n : Mode),
      (b.printOn columns o j n (a.printOn columns o i m Page.blank)).text
        = trimLineEnds ((a.printOn columns o i m Page.blank).text
            ++ (b.printOn columns o j n Page.blank).text) := by
    intro columns i j m n
    refine Document.printOn_eq_trimLineEnds hb ?_
    rw [Document.toList_text_printOn ha trimmed_blank]
    exact trimmed_trimLines _
  have hwords : ∀ (columns : Char → Nat) (i j : Nat) (m n : Mode) (p q : Page),
      a.printOn? columns o i m Page.blank = .ok p → b.printOn? columns o j n p = .ok q →
      ∃ r, b.printOn? columns o j n Page.blank = .ok r ∧
        q.text = trimLineEnds (p.text ++ r.text) := by
    intro columns i j m n p q hp hq
    obtain rfl := computes_printOn? a Page.blank p hp
    have hbehind : Page.blank.Behind (a.printOn columns o i m Page.blank) := by
      rw [Document.printOn_eq_foldl]
      exact ⟨Page.line_le_foldl_draw _ Page.blank, Nat.zero_le _⟩
    obtain ⟨r, hr, -⟩ := b.recedes_printOn? Page.blank _ q hbehind hq
    refine ⟨r, hr, ?_⟩
    rw [computes_printOn? b _ q hq, computes_printOn? b Page.blank r hr]
    exact hlater columns i j m n
  refine ⟨⟨hlater Text.charWidth 0 0 .free .free, hlater⟩, fun s hs => ?_, hwords⟩
  obtain ⟨q, hq, hs⟩ := bind_eq_ok.mp hs
  rw [Document.printOn?, Document.printAllOn?] at hq
  obtain ⟨p, hp, hq⟩ := bind_eq_ok.mp hq
  rw [Document.printAllOn?] at hq
  obtain ⟨q', hq', hq⟩ := bind_eq_ok.mp hq
  cases hq
  cases hs
  obtain ⟨r, hr, htext⟩ := hwords Text.charWidth 0 0 .free .free p q hp hq'
  exact ⟨p.text, r.text, bind_eq_ok.mpr ⟨p, hp, rfl⟩, bind_eq_ok.mpr ⟨r, hr, rfl⟩, htext⟩

/-- Two tabs that are too wide for a word together. -/
example : (Document.text "\t").print? ⟨80, 2 ^ 63, false⟩ = .ok "\t" ∧
    (Document.concat [.text "\t", .text "\t"]).print? ⟨80, 2 ^ 63, false⟩ = .error .add := by
  decide +kernel

/-- A document that ends in a space. -/
def spaceLast : Document := .concat [.token "<b", .space]

/-- A group that begins with a line break and has blanks of its own at the end of a line. -/
def breakFirst : Document := .groupOf 1 [.lineBreak, .text "y \t\nz"]

/-- The space at the seam goes, and so do the blanks inside the second document. -/
theorem print_concat_seam :
    ((Document.concat [spaceLast, breakFirst]).print ⟨80, 2, false⟩
        = trimLineEnds ("<b " ++ "\n  y\nz") ∧
      (Document.concat [spaceLast, breakFirst]).print? ⟨80, 2, false⟩ = .ok "<b\n  y\nz") ∧
      trimLineEnds ("<b " ++ "\n  y\nz") = "<b\n  y\nz" ∧
      ∃ t u, spaceLast.print? ⟨80, 2, false⟩ = .ok t ∧ breakFirst.print? ⟨80, 2, false⟩ = .ok u ∧
        "<b\n  y\nz" = trimLineEnds (t ++ u) := by
  have hfirst : spaceLast.print ⟨80, 2, false⟩ = "<b " := by decide +kernel
  have hsecond : breakFirst.print ⟨80, 2, false⟩ = "\n  y\nz" := by decide +kernel
  have hwords : (Document.concat [spaceLast, breakFirst]).print? ⟨80, 2, false⟩
      = .ok "<b\n  y\nz" := by decide +kernel
  have hlocal := print_concat ⟨80, 2, false⟩ spaceLast breakFirst (by simp [spaceLast])
    (by simp [breakFirst, Document.groupOf])
  refine ⟨⟨?_, hwords⟩, by decide +kernel, hlocal.2.1 _ hwords⟩
  rw [← hfirst, ← hsecond]
  exact hlocal.1.1

end TreeLint
