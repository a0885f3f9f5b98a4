import Mathlib
import TreeLint.Proofs.FitTest
import TreeLint.Proofs.Strokes

namespace TreeLint

/-!
# The layout of a group

A group has two layouts, and each of them is that of a plain document.

* Flat, it appends one line. `Document.withoutReturns` takes the carriage returns out of the texts
  of a document, and its flat text is that line (`text_printOn_flat`). Tokens are written as they
  are.
* Broken, it is printed like its contents with line breaks for its own spaces
  (`Document.breakSpaces`), one indentation further in (`strokes_breakSpaces`). The groups inside
  are left as they are and decide again.
* `printOn_group` puts the two together.
-/

/-- The text without carriage returns. -/
def dropReturns (s : String) : String := String.ofList (s.toList.filter (· ≠ '\r'))

namespace Document

mutual

/-- The document with no carriage returns in its texts. -/
def withoutReturns : Document → Document
  | token t => token t
  | text t => text (dropReturns t)
  | concat ds => concat (withoutReturnsAll ds)
  | space => space
  | lineBreak => lineBreak
  | group d levels => group (withoutReturns d) levels

/-- The documents with no carriage returns in their texts. -/
def withoutReturnsAll : List Document → List Document
  | [] => []
  | d :: ds => withoutReturns d :: withoutReturnsAll ds

end

mutual

/-- The document with line breaks for the spaces that are not inside a group. -/
def breakSpaces : Document → Document
  | token t => token t
  | text t => text t
  | concat ds => concat (breakSpacesAll ds)
  | space => lineBreak
  | lineBreak => lineBreak
  | group d levels => group d levels

/-- The documents with line breaks for the spaces that are not inside a group. -/
def breakSpacesAll : List Document → List Document
  | [] => []
  | d :: ds => breakSpaces d :: breakSpacesAll ds

end

theorem withoutReturnsAll_eq_map (ds : List Document) :
    withoutReturnsAll ds = ds.map withoutReturns := by
  induction ds with
  | nil => rfl
  | cons d ds ih => rw [withoutReturnsAll, ih, List.map_cons]

theorem breakSpacesAll_eq_map (ds : List Document) : breakSpacesAll ds = ds.map breakSpaces := by
  induction ds with
  | nil => rfl
  | cons d ds ih => rw [breakSpacesAll, ih, List.map_cons]

/-! ### The flat line -/

/-- The flat line of a row is that of its documents, one after the other. -/
theorem toList_flat_withoutReturns_concat (ds : List Document) :
    (concat ds).withoutReturns.flat.toList = ds.flatMap fun d => d.withoutReturns.flat.toList := by
  rw [withoutReturns, withoutReturnsAll_eq_map, toList_flat_concat, List.flatMap_map]

/-- Without carriage returns in tokens, all carriage returns are in texts. -/
theorem flat_withoutReturns {d : Document} (h : d.TokensFreeOf '\r') :
    d.withoutReturns.flat = dropReturns d.flat := by
  rw [← String.toList_inj, dropReturns, String.toList_ofList]
  induction d with
  | token t =>
    rw [tokensFreeOf_token] at h
    refine (List.filter_eq_self.mpr fun c hc => ?_).symm
    exact decide_eq_true (ne_of_mem_of_not_mem hc h)
  | text t => rw [withoutReturns, flat, flat, dropReturns, String.toList_ofList]
  | space | lineBreak => rfl
  | group d levels ih => exact ih (tokensFreeOf_group.mp h)
  | concat ds ih =>
    rw [toList_flat_withoutReturns_concat, toList_flat_concat, List.filter_flatMap]
    exact List.flatMap_congr fun d hd => ih d hd (tokensFreeOf_concat.mp h d hd)

/-- The flat line is a single one. -/
theorem not_mem_flat_withoutReturns {d : Document} (h : d.TokensFreeOf '\n')
    (hbreak : d.hasBreak = false) : '\n' ∉ d.withoutReturns.flat.toList := by
  induction d with
  | token t => exact tokensFreeOf_token.mp h
  | text t =>
    rw [hasBreak, List.contains_eq_mem, decide_eq_false_iff_not] at hbreak
    rw [withoutReturns, flat, dropReturns, String.toList_ofList]
    exact fun hmem => hbreak (List.mem_filter.mp hmem).1
  | space => decide
  | lineBreak => cases hbreak
  | group d levels ih => exact ih (tokensFreeOf_group.mp h) hbreak
  | concat ds ih =>
    rw [hasBreak, hasBreakAny_eq_false_iff] at hbreak
    rw [toList_flat_withoutReturns_concat, List.mem_flatMap]
    rintro ⟨d, hd, hmem⟩
    exact ih d hd (tokensFreeOf_concat.mp h d hd) (hbreak d hd) hmem

end Document

variable {columns : Char → Nat} {o : PrintOptions} {indent : Nat} {mode : Mode}

/-- The stroke is the character `c`. -/
def Stroke.Writes (s : Stroke) (c : Char) : Prop := ∃ width, s = glyph c width

/-- Characters are added to the line as they are. -/
theorem Page.text_foldl_of_writes {ss : List Stroke} {cs : List Char}
    (h : List.Forall₂ Stroke.Writes ss cs) (p : Page) :
    (ss.foldl (draw o) p).text.toList = p.text.toList ++ cs ∧
      (ss.foldl (draw o) p).line = p.line := by
  induction h generalizing p with
  | nil => exact ⟨(List.append_nil _).symm, rfl⟩
  | cons hs _ ih =>
    obtain ⟨width, rfl⟩ := hs
    obtain ⟨htext, hline⟩ := ih (p.draw o (.glyph _ width))
    refine ⟨?_, hline⟩
    rw [List.foldl_cons, htext, toList_text_glyph, List.append_assoc, List.singleton_append]

/-- A text without line feeds is written without its carriage returns. -/
theorem writes_text (tab : Nat) {cs : List Char} (h : '\n' ∉ cs) :
    List.Forall₂ Stroke.Writes (cs.flatMap (Stroke.ofTextChar columns tab))
      (cs.filter (· ≠ '\r')) := by
  induction cs with
  | nil => exact .nil
  | cons c cs ih =>
    have hrest := ih (List.not_mem_of_not_mem_cons h)
    rw [List.flatMap_cons]
    rcases Stroke.ofTextChar_cases columns tab c with ⟨rfl, -⟩ | ⟨rfl, hc⟩ | ⟨⟨-, hne⟩, width, hc⟩
    · exact absurd List.mem_cons_self h
    · rwa [hc, List.nil_append]
    · rw [hc, List.filter_cons, if_pos (decide_eq_true hne)]
      exact .cons ⟨width, rfl⟩ hrest

/-- **A document without line breaks is written on one line** when it is laid out flat, whatever the
    indentation. -/
theorem Document.writes_flat {d : Document} (h : d.hasBreak = false) :
    List.Forall₂ Stroke.Writes (d.strokes columns o indent .flat) d.withoutReturns.flat.toList := by
  induction d generalizing indent with
  | token t =>
    exact List.forall₂_map_left_iff.mpr (List.forall₂_same.mpr fun c _ => ⟨c.utf8Size, rfl⟩)
  | text t =>
    rw [hasBreak, List.contains_eq_mem, decide_eq_false_iff_not] at h
    rw [withoutReturns, flat, dropReturns, String.toList_ofList]
    exact writes_text o.indentWidth h
  | space => exact .cons ⟨1, rfl⟩ .nil
  | lineBreak => cases h
  | group d levels ih => exact ih h
  | concat ds ih =>
    rw [hasBreak, hasBreakAny_eq_false_iff] at h
    rw [toList_flat_withoutReturns_concat, strokes, strokesAll_eq_flatMap]
    induction ds with
    | nil => exact .nil
    | cons d ds ihds =>
      rw [List.flatMap_cons, List.flatMap_cons]
      refine List.rel_append (ih d List.mem_cons_self (h d List.mem_cons_self)) ?_
      exact ihds (fun d' hd' => ih d' (List.mem_cons_of_mem d hd'))
        fun d' hd' => h d' (List.mem_cons_of_mem d hd')

/-- A flat document appends its flat line. -/
theorem Document.text_printOn_flat (columns : Char → Nat) (o : PrintOptions) (indent : Nat)
    {d : Document} (h : d.hasBreak = false) (p : Page) :
    (d.printOn columns o indent .flat p).text = p.text ++ d.withoutReturns.flat ∧
      (d.printOn columns o indent .flat p).line = p.line := by
  obtain ⟨htext, hline⟩ := Page.text_foldl_of_writes (o := o) (writes_flat h) p
  rw [printOn_eq_foldl, ← String.toList_inj, String.toList_append]
  exact ⟨htext, hline⟩

/-! ### Broken groups -/

/-- Outside flat groups a group decides by itself. -/
theorem groupMode_of_ne_flat (hmode : mode ≠ .flat) (d : Document) :
    groupMode columns o mode d = if fits columns o d then .flat else .broken := by
  rw [groupMode, decide_eq_false hmode, Bool.false_or]

/-- **A broken group is its contents with line breaks for its spaces**, printed anywhere outside
    flat groups. -/
theorem Document.strokes_breakSpaces (hmode : mode ≠ .flat) (d : Document) :
    d.breakSpaces.strokes columns o indent mode = d.strokes columns o indent .broken := by
  induction d with
  | token t | text t | space | lineBreak => rfl
  | group d levels ih =>
    rw [breakSpaces, strokes, strokes, groupMode_of_ne_flat hmode,
      groupMode_of_ne_flat Mode.noConfusion]
  | concat ds ih =>
    rw [breakSpaces, breakSpacesAll_eq_map, strokes, strokes, strokesAll_eq_flatMap,
      strokesAll_eq_flatMap, List.flatMap_map]
    exact List.flatMap_congr ih

/-- The same in machine words, with the same overflows. -/
theorem Document.printOn?_breakSpaces (hmode : mode ≠ .flat) (d : Document) (p : Page) :
    d.breakSpaces.printOn? columns o indent mode p = d.printOn? columns o indent .broken p := by
  induction d generalizing p with
  | token t | text t | space | lineBreak => rfl
  | group d levels ih =>
    have hflat : laysFlat? columns o mode d = laysFlat? columns o .broken d := if_neg hmode
    rw [breakSpaces, printOn?, printOn?, hflat]
  | concat ds ih =>
    rw [breakSpaces, breakSpacesAll_eq_map, printOn?, printOn?]
    exact printAllOn?_map ih p

/-! ### The law -/

/-- A group is printed as its contents are, deeper and in the mode of the group. -/
theorem Document.printOn_group_eq (d : Document) (levels : UInt8) (p : Page) :
    (group d levels).printOn columns o indent mode p
      = d.printOn columns o (indent + levels.toNat) (groupMode columns o mode d) p := by
  rw [printOn, groupMode]

/-- A group that is printed in machine words is printed as its contents are in its mode. -/
theorem Document.printOn?_of_group {d : Document} {levels : UInt8} {p p' : Page}
    (h : (group d levels).printOn? columns o indent mode p = .ok p') :
    d.printOn? columns o (indent + levels.toNat) (groupMode columns o mode d) p = .ok p' := by
  rw [printOn?] at h
  obtain ⟨deeper, hdeeper, h⟩ := bind_eq_ok.mp h
  obtain ⟨flat, hflat, h⟩ := bind_eq_ok.mp h
  obtain rfl := computes_add _ _ deeper hdeeper
  obtain rfl := computes_laysFlat? d flat hflat
  exact h

/-- **The layout of a group.** A group that fits outside flat groups, and one without line breaks
    inside a flat group, appends its flat line to whatever is on the page. That is its flat text
    without carriage returns, unless tokens hold some. A group inside a document that fits has no
    line breaks. A group that does not fit outside flat groups is printed like its contents with
    line breaks for its own spaces. In machine words all this holds of a group that is printed
    without overflow. -/
theorem printOn_group (columns : Char → Nat) (o : PrintOptions) (indent : Nat) (mode : Mode)
    (d : Document) (levels : UInt8) (p : Page) (hd : d.TokensFreeOf '\n') :
    (mode ≠ .flat ∧ fits columns o d = true ∨ mode = .flat ∧ d.hasBreak = false →
      (((Document.group d levels).printOn columns o indent mode p).text
          = p.text ++ d.withoutReturns.flat ∧
        ((Document.group d levels).printOn columns o indent mode p).line = p.line) ∧
      (∀ p', (Document.group d levels).printOn? columns o indent mode p = .ok p' →
        p'.text = p.text ++ d.withoutReturns.flat ∧ p'.line = p.line) ∧
      '\n' ∉ d.withoutReturns.flat.toList ∧
      (d.TokensFreeOf '\r' → d.withoutReturns.flat = dropReturns d.flat)) ∧
    (∀ outer : Document, fits columns o outer = true → .group d levels ∈ outer.parts →
      d.hasBreak = false) ∧
    (mode ≠ .flat → fits columns o d = false → ∀ mode' ≠ Mode.flat,
      (Document.group d levels).printOn columns o indent mode p
          = d.breakSpaces.printOn columns o (indent + levels.toNat) mode' p ∧
        ∀ p', (Document.group d levels).printOn? columns o indent mode p = .ok p' →
          d.breakSpaces.printOn? columns o (indent + levels.toNat) mode' p = .ok p') := by
  refine ⟨fun h => ?_, fun outer houter hmem => ?_, fun hmode hfits mode' hmode' => ?_⟩
  · have hflat : groupMode columns o mode d = .flat ∧ d.hasBreak = false := by
      rcases h with ⟨hmode, hfits⟩ | ⟨rfl, hbreak⟩
      · exact ⟨by rw [groupMode_of_ne_flat hmode, if_pos hfits], hasBreak_of_fits hfits⟩
      · exact ⟨rfl, hbreak⟩
    obtain ⟨hgroup, hbreak⟩ := hflat
    have hline := Document.text_printOn_flat columns o (indent + levels.toNat) hbreak p
    rw [← hgroup, ← Document.printOn_group_eq] at hline
    refine ⟨hline, fun p' hp' => ?_, Document.not_mem_flat_withoutReturns hd hbreak,
      Document.flat_withoutReturns⟩
    rwa [computes_printOn? _ p p' hp']
  · have hbreak := Document.hasBreak_of_mem_parts hmem (hasBreak_of_fits houter)
    rwa [Document.hasBreak] at hbreak
  -- In machine words the mode of the group is the same, as it is printed without overflow.
  · have hbroken : groupMode columns o mode d = .broken := by
      rw [groupMode_of_ne_flat hmode, hfits]
      rfl
    refine ⟨?_, fun p' hp' => ?_⟩
    · rw [Document.printOn_group_eq, hbroken, Document.printOn_eq_foldl, Document.printOn_eq_foldl,
        Document.strokes_breakSpaces hmode']
    · rw [Document.printOn?_breakSpaces hmode', ← hbroken]
      exact Document.printOn?_of_group hp'

/-- A short list. -/
def shortList : Document := .concat [.token "b1", .space, .text "b2\r"]

/-- A list that holds the short one. -/
def longList : Document :=
  .concat [.text "aaaaaaaaaa", .space, .group shortList 1, .space, .text "c"]

/-- On lines of 12 columns the long list is broken and the short one inside it is not. -/
theorem printOn_group_longList :
    ((Document.group longList 1).printOn Text.charWidth ⟨12, 2, false⟩ 0 .free .blank
          = longList.breakSpaces.printOn Text.charWidth ⟨12, 2, false⟩ 1 .free .blank ∧
        ∃ p, longList.breakSpaces.printOn? Text.charWidth ⟨12, 2, false⟩ 1 .free .blank = .ok p) ∧
      ∀ p, ((Document.group shortList 1).printOn Text.charWidth ⟨12, 2, false⟩ 1 .broken p).text
        = p.text ++ "b1 b2" := by
  have hlong := printOn_group Text.charWidth ⟨12, 2, false⟩ 0 .free longList 1 .blank (by
    simp [longList, shortList])
  obtain ⟨hpage, hwords⟩ :=
    hlong.2.2 Mode.noConfusion (by decide +kernel) .free Mode.noConfusion
  have hok : ((Document.group longList 1).printOn? Text.charWidth ⟨12, 2, false⟩ 0 .free
      .blank).isOk = true := by decide +kernel
  refine ⟨⟨hpage, ?_⟩, fun p => ?_⟩
  · generalize (Document.group longList 1).printOn? Text.charWidth ⟨12, 2, false⟩ 0 .free .blank
      = out at hok hwords
    cases out with
    | error e => cases hok
    | ok p => exact ⟨p, hwords p rfl⟩
  · have hshort := printOn_group Text.charWidth ⟨12, 2, false⟩ 1 .broken shortList 1 p (by
      simp [shortList])
    exact (hshort.1 (.inl ⟨Mode.noConfusion, by decide +kernel⟩)).1.1

/-- The contents of a group with a carriage return in a token. -/
def returnToken : Document := .concat [.token "a\rb"]

/-- A token is written as it is: the carriage return in it stays, although no token holds a line
    feed and the group fits. -/
theorem printOn_group_keeps_return :
    returnToken.TokensFreeOf '\n' ∧ fits Text.charWidth ⟨80, 2, false⟩ returnToken = true ∧
      ((Document.group returnToken 0).printOn Text.charWidth ⟨80, 2, false⟩ 0 .free .blank).text
        ≠ Page.blank.text ++ dropReturns returnToken.flat := by
  refine ⟨?_, by decide +kernel, by decide +kernel⟩
  simp [returnToken]

end TreeLint
