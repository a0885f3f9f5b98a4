import Mathlib
import TreeLint.Proofs.FitTest
import TreeLint.Proofs.MachineWords

namespace TreeLint

/-!
# Room on a page

Printing in machine words goes well when all counters have room for what is still to come.

* `Page.Room`: the columns and lines that a page still has room for. Whatever is written takes some
  of it (`Page.put?_of_room`, `Page.newLine?_of_room`).
* `Document.extent` bounds the columns and the lines of a document, and `Document.NestsWithin` the
  levels of its line breaks.
* `fits?_of_extent`: the fit test does not overflow for a document whose extent is below `2 ^ 63`.
* `Document.printOn?_of_room`: on a page with room for the extent of a document no word overflows.
-/

open Document

variable {columns : Char → Nat} {tab : Nat} {o : PrintOptions} {indent : Nat} {mode : Mode}

/-- With lines that are indented by `margin` columns at most, the page has room for `n` more columns
    and for `n` more lines. -/
def Page.Room (p : Page) (margin n : Nat) : Prop :=
  max p.column margin + n < Config.wordSize ∧ p.line + n < Config.wordSize

namespace Page

variable {p : Page} {margin n : Nat}

/-- A page with room for more has room for less. -/
theorem Room.mono {m : Nat} (h : p.Room margin n) (hle : m ≤ n) : p.Room margin m :=
  ⟨lt_of_le_of_lt (Nat.add_le_add_left hle _) h.1, lt_of_le_of_lt (Nat.add_le_add_left hle _) h.2⟩

/-- Room for a character is taken by it. -/
theorem put?_of_room {c : Char} {width : Nat} (h : p.Room margin (width + n)) :
    p.put? c width = .ok (p.put c width) ∧ (p.put c width).Room margin n := by
  obtain ⟨hcolumn, hline⟩ := h
  refine ⟨?_, ?_, ?_⟩
  · rw [put?, Word.add_of_lt (by omega)]
    rfl
  · show max (p.column + width) margin + n < Config.wordSize
    omega
  · show p.line + n < Config.wordSize
    omega

/-- Room for a token is taken by it. -/
theorem putToken?_of_room {t : String} (h : p.Room margin (t.utf8ByteSize + n)) :
    p.putToken? t = .ok (p.putToken t) ∧ (p.putToken t).Room margin n := by
  obtain ⟨hcolumn, hline⟩ := h
  refine ⟨?_, ?_, ?_⟩
  · rw [putToken?, Word.add_of_lt (by omega)]
    rfl
  · show max (p.column + t.utf8ByteSize) margin + n < Config.wordSize
    omega
  · show p.line + n < Config.wordSize
    omega

/-- A line break takes a line and gives the columns of the old line back. -/
theorem newLine?_of_room {levels : Nat} (hlevels : levels * o.indentWidth ≤ margin)
    (h : p.Room margin (1 + n)) :
    p.newLine? o levels = .ok (p.newLine o levels) ∧ (p.newLine o levels).Room margin n := by
  obtain ⟨hcolumn, hline⟩ := h
  refine ⟨?_, ?_, ?_⟩
  · rw [newLine?, Word.add_of_lt (by omega), Word.mul_of_lt (by omega)]
    rfl
  · show max (levels * o.indentWidth) margin + n < Config.wordSize
    omega
  · show p.line + 1 + n < Config.wordSize
    omega

end Page

/-- No character of a text takes more than `unit` columns. -/
structure CharsWithin (columns : Char → Nat) (o : PrintOptions) (unit : Nat) : Prop where
  pos : 0 < unit
  tab_le : o.indentWidth ≤ unit
  columns_le : ∀ c, columns c ≤ unit

section Room

variable {unit margin n : Nat} {p : Page}

/-- A character of a text takes `unit` columns or a line, at most. -/
theorem putTextChar?_of_room (hchars : CharsWithin columns o unit) {c : Char}
    (h : p.Room margin (unit + n)) :
    p.putTextChar? columns o c = .ok (p.putTextChar columns o c) ∧
      (p.putTextChar columns o c).Room margin n := by
  obtain ⟨hpos, htab, hcolumns⟩ := hchars
  have hc := hcolumns c
  unfold Page.putTextChar? Page.putTextChar
  split_ifs
  · exact Page.newLine?_of_room (by omega) (h.mono (by omega))
  · exact ⟨rfl, h.mono (by omega)⟩
  · exact Page.put?_of_room (h.mono (by omega))
  · exact Page.put?_of_room (h.mono (by omega))

/-- Room for all characters of a text is taken by them one after another. -/
theorem foldlM_putTextChar?_of_room (hchars : CharsWithin columns o unit) {cs : List Char}
    (h : p.Room margin (cs.length * unit + n)) :
    cs.foldlM (Page.putTextChar? columns o) p = .ok (cs.foldl (Page.putTextChar columns o) p) ∧
      (cs.foldl (Page.putTextChar columns o) p).Room margin n := by
  induction cs generalizing p with
  | nil => exact ⟨rfl, h.mono (by omega)⟩
  | cons c cs ih =>
    have hlength : (c :: cs).length * unit + n = unit + (cs.length * unit + n) := by
      rw [List.length_cons]
      ring
    obtain ⟨hok, hroom⟩ := putTextChar?_of_room hchars (hlength ▸ h)
    rw [List.foldlM_cons, List.foldl_cons, hok]
    exact ih hroom

end Room

/-! ### The extent of a document -/

namespace Document

mutual

/-- The columns and the lines that a document takes at most, when a character of a text takes
    `unit`. -/
def extent (unit : Nat) : Document → Nat
  | token t => t.utf8ByteSize
  | text t => t.length * unit
  | concat ds => extentAll unit ds
  | space => 1
  | lineBreak => 1
  | group d _ => extent unit d

/-- The extent of several documents. -/
def extentAll (unit : Nat) : List Document → Nat
  | [] => 0
  | d :: ds => extent unit d + extentAll unit ds

end

/-- Every group of the document holds a row of documents, and a line break of it is indented by
    `k` levels more than the document, at most. -/
inductive NestsWithin : Nat → Document → Prop where
  | token {k : Nat} (t : String) : NestsWithin k (token t)
  | text {k : Nat} (t : String) : NestsWithin k (text t)
  | space {k : Nat} : NestsWithin k space
  | lineBreak {k : Nat} : NestsWithin k lineBreak
  | concat {k : Nat} {ds : List Document} (h : ∀ d ∈ ds, NestsWithin k d) :
      NestsWithin k (concat ds)
  | groupOf {k j : Nat} {ds : List Document} {levels : UInt8} (hle : levels.toNat + j ≤ k)
      (h : NestsWithin j (concat ds)) : NestsWithin k (groupOf levels ds)

/-- What nests within few levels nests within more. -/
theorem NestsWithin.mono {j k : Nat} {d : Document} (h : d.NestsWithin j) (hle : j ≤ k) :
    d.NestsWithin k := by
  induction h generalizing k with
  | token t => exact .token t
  | text t => exact .text t
  | space => exact .space
  | lineBreak => exact .lineBreak
  | concat _ ih => exact .concat fun d hd => ih d hd hle
  | groupOf hle' h _ => exact .groupOf (hle'.trans hle) h

end Document

section Extent

variable {unit : Nat}

/-- No character of a text is wider than `unit`. -/
theorem Text.textWidthWith_le (hchars : CharsWithin columns o unit) (t : String) :
    Text.textWidthWith columns o.indentWidth t ≤ t.length * unit := by
  obtain ⟨-, htab, hcolumns⟩ := hchars
  unfold Text.textWidthWith
  rw [← String.length_toList]
  induction t.toList with
  | nil => exact Nat.zero_le _
  | cons c cs ih =>
    have hc : (if c = '\t' then o.indentWidth else columns c) ≤ unit := by
      split_ifs
      · exact htab
      · exact hcolumns c
    rw [List.foldr_cons, List.length_cons, Nat.succ_mul]
    omega

/-- The flat text of a document is no wider than its extent. -/
theorem Document.flatWidth_le_extent (hchars : CharsWithin columns o unit) (d : Document) :
    d.flatWidth columns o.indentWidth ≤ d.extent unit := by
  induction d with
  | token t => exact le_rfl
  | text t => exact Text.textWidthWith_le hchars t
  | space => exact le_rfl
  | lineBreak => exact Nat.zero_le _
  | group d levels ih => exact ih
  | concat ds ih =>
    rw [flatWidth, extent]
    induction ds with
    | nil => exact le_rfl
    | cons d ds ihds =>
      rw [flatWidthAll, extentAll]
      exact Nat.add_le_add (ih d List.mem_cons_self)
        (ihds fun d' hd' => ih d' (List.mem_cons_of_mem d hd'))

/-- **The fit test of a row does not overflow** if its extent is a signed word. A budget that is
    negative from the start is looked at before anything is taken off it. -/
theorem fits?_of_extent (hchars : CharsWithin columns o unit) {ds : List Document}
    (h : (concat ds).extent unit < 2 ^ 63) :
    fits? columns o (concat ds) = .ok (fits columns o (concat ds)) := by
  unfold fits? fits
  by_cases hneg : signedWord o.lineWidth < 0
  · rw [fitsWithin?, fitsWithin, if_pos hneg, if_pos hneg]
  · have hwidth : flatWidthAll columns o.indentWidth [concat ds] < 2 ^ 63 := by
      have hle := flatWidth_le_extent hchars (concat ds)
      rw [flatWidthAll, flatWidthAll]
      omega
    exact fitsWithin?_of_lt (not_lt.mp hneg) (signedWord_lt _) hwidth

/-- Neither does the choice between the two layouts of a row in a group. -/
theorem laysFlat?_of_extent (hchars : CharsWithin columns o unit) {ds : List Document}
    (h : (concat ds).extent unit < 2 ^ 63) :
    laysFlat? columns o mode (concat ds)
      = .ok (decide (mode = .flat) || fits columns o (concat ds)) := by
  unfold laysFlat?
  by_cases hmode : mode = .flat
  · rw [if_pos hmode, decide_eq_true hmode, Bool.true_or]
  · rw [if_neg hmode, decide_eq_false hmode, Bool.false_or, fits?_of_extent hchars h]

/-! ### Documents on a page with room -/

/-- **On a page with room for a document no word overflows**, and the rest of the room is left. -/
theorem Document.printOn?_of_room (hchars : CharsWithin columns o unit) {margin n k : Nat}
    {d : Document} (hd : d.NestsWithin k) (hextent : d.extent unit < 2 ^ 63)
    (hmargin : (indent + k) * o.indentWidth ≤ margin) (hlevels : indent + k < Config.wordSize)
    {p : Page} (h : p.Room margin (d.extent unit + n)) :
    d.printOn? columns o indent mode p = .ok (d.printOn columns o indent mode p) ∧
      (d.printOn columns o indent mode p).Room margin n := by
  have hindent : ∀ {indent k : Nat}, (indent + k) * o.indentWidth ≤ margin →
      indent * o.indentWidth ≤ margin :=
    fun h => (Nat.mul_le_mul_right _ (Nat.le_add_right _ _)).trans h
  -- Over how the groups nest: the levels that are left inside a group come with its case.
  induction hd generalizing indent mode p n with
  | token t => exact Page.putToken?_of_room h
  | text t =>
    rw [extent, ← String.length_toList] at h
    exact foldlM_putTextChar?_of_room hchars h
  | space =>
    rw [printOn?, printOn]
    split_ifs
    · exact Page.newLine?_of_room (hindent hmargin) h
    · exact Page.put?_of_room h
  | lineBreak => exact Page.newLine?_of_room (hindent hmargin) h
  | @groupOf k j ds levels hle _ ih =>
    have hdeeper : indent + levels.toNat + j ≤ indent + k := by omega
    rw [Document.groupOf, printOn?, printOn, Word.add_of_lt (by omega)]
    show (laysFlat? columns o mode (.concat ds) >>= _) = _ ∧ _
    rw [laysFlat?_of_extent hchars hextent]
    exact ih hextent ((Nat.mul_le_mul_right _ hdeeper).trans hmargin) (by omega) h
  | @concat k ds hds ih =>
    clear hds
    rw [printOn?, printOn]
    rw [extent] at hextent h
    induction ds generalizing p n with
    | nil => exact ⟨rfl, h.mono (Nat.le_add_left _ _)⟩
    | cons d ds ihds =>
      rw [extentAll] at hextent h
      obtain ⟨hok, hroom⟩ : d.printOn? columns o indent mode p = .ok _ ∧ Page.Room _ margin _ :=
        ih d List.mem_cons_self (by omega) hmargin hlevels (Nat.add_assoc _ _ _ ▸ h)
      rw [printAllOn?, printAllOn, hok]
      exact ihds (fun d' hd' => ih d' (List.mem_cons_of_mem d hd')) (by omega) hroom

end Extent

end TreeLint
