import Mathlib
import TreeLint.Proofs.MachineWords

namespace TreeLint

/-!
# The fit test

The fit test works through a stack of documents and takes the width of each piece off a budget. It
gives up at a line break and as soon as the budget is overdrawn.

* `Document.flatWidth` is the width of a document, by recursion and without a budget.
* `fitsWithin_iff`: while no number is too large for a signed word, the test succeeds exactly if
  the stack has no line break and its width is within the budget.
* `hasBreak_of_fits` needs no bound: numbers that wrap around can make a document pass as narrow,
  but never one with a line break.
* `fitsWithin?_of_lt`: within these bounds the test in machine words does not overflow.
* `fits_iff_flatWidth_le` is the result for a document.
-/

namespace Document

mutual

/-- The number of columns of the flat text: tokens take their bytes, spaces take one column. -/
def flatWidth (columns : Char → Nat) (tab : Nat) : Document → Nat
  | token t => t.utf8ByteSize
  | text t => Text.textWidthWith columns tab t
  | concat ds => flatWidthAll columns tab ds
  | space => 1
  | lineBreak => 0
  | group d _ => flatWidth columns tab d

/-- The number of columns of several documents. -/
def flatWidthAll (columns : Char → Nat) (tab : Nat) : List Document → Nat
  | [] => 0
  | d :: ds => flatWidth columns tab d + flatWidthAll columns tab ds

end

/-- The widths of two rows add up. -/
theorem flatWidthAll_append (columns : Char → Nat) (tab : Nat) (ds es : List Document) :
    flatWidthAll columns tab (ds ++ es)
      = flatWidthAll columns tab ds + flatWidthAll columns tab es := by
  induction ds with
  | nil => rw [List.nil_append, flatWidthAll, Nat.zero_add]
  | cons d ds ih => rw [List.cons_append, flatWidthAll, flatWidthAll, ih, Nat.add_assoc]

end Document

open Document

variable {columns : Char → Nat} {tab : Nat}

/-- A number below `2 ^ 63` stands for itself in a signed word. -/
theorem signedWord_of_lt {n : Nat} (h : n < 2 ^ 63) : signedWord n = n := by
  unfold signedWord
  have hword : ((Nat.pow 2 64 : Nat) : Int) = 2 ^ 64 := by norm_num
  exact Int.bmod_eq_of_le (by rw [hword]; omega) (by rw [hword]; omega)

/-- What is left of the budget after a piece is enough for the rest if the budget was enough for
    both. -/
theorem le_sub_signedWord_iff {width rest : Nat} {remaining : Int} (h : width + rest < 2 ^ 63) :
    (rest : Int) ≤ remaining - signedWord width ↔ ((width + rest : Nat) : Int) ≤ remaining := by
  rw [signedWord_of_lt (lt_of_le_of_lt (Nat.le_add_right width rest) h)]
  omega

/-- A budget that a piece overdraws is not enough for the piece and the rest. -/
theorem not_le_of_overdrawn {width rest : Nat} {remaining : Int} (h : width + rest < 2 ^ 63)
    (hleft : remaining - signedWord width < 0) : ¬((width + rest : Nat) : Int) ≤ remaining := by
  rw [← le_sub_signedWord_iff h]
  omega

/-- **The budget bounds the width of the whole stack**, although it is looked at after every piece:
    it only shrinks on the way, so it lasts for every piece if it lasts to the end. -/
theorem fitsWithin_iff {remaining : Int} {stack : List Document} (hremaining : 0 ≤ remaining)
    (hwidth : flatWidthAll columns tab stack < 2 ^ 63) :
    fitsWithin columns tab remaining stack = true ↔
      hasBreakAny stack = false ∧ (flatWidthAll columns tab stack : Int) ≤ remaining := by
  fun_induction fitsWithin columns tab remaining stack
  case case1 =>
    simpa [hasBreakAny, flatWidthAll] using hremaining
  -- A token, a text or a space that overdraws the budget.
  case case2 left hleft | case5 left hleft | case7 left hleft =>
    rw [flatWidthAll, flatWidth] at hwidth ⊢
    simpa using fun _ => not_le_of_overdrawn hwidth hleft
  -- One that does not.
  case case3 left hleft ih =>
    rw [flatWidthAll, flatWidth] at hwidth ⊢
    rw [ih (by omega) (by omega), le_sub_signedWord_iff hwidth, hasBreakAny, hasBreak,
      Bool.false_or]
  case case6 hbreak left hleft ih =>
    rw [flatWidthAll, flatWidth] at hwidth ⊢
    rw [ih (by omega) (by omega), le_sub_signedWord_iff hwidth, hasBreakAny, hasBreak,
      Bool.eq_false_of_not_eq_true hbreak, Bool.false_or]
  case case8 left hleft ih =>
    rw [flatWidthAll, flatWidth] at hwidth ⊢
    rw [ih (by omega) (by omega), hasBreakAny, hasBreak, Bool.false_or]
    exact and_congr_right fun _ => by omega
  -- A line break.
  case case4 hbreak =>
    simp [hasBreakAny, hasBreak, -List.contains_eq_mem, hbreak]
  case case9 => simp [hasBreakAny, hasBreak]
  -- The budget is never negative.
  case case10 hneg | case12 hneg => exact absurd hneg (not_lt.mpr hremaining)
  case case11 ih =>
    rw [flatWidthAll, flatWidth, ← flatWidthAll_append] at hwidth ⊢
    rw [ih hremaining hwidth, hasBreakAny_append, hasBreakAny, hasBreak]
  case case13 ih =>
    rw [flatWidthAll, flatWidth, ← flatWidthAll] at hwidth ⊢
    rw [ih hremaining hwidth, hasBreakAny, hasBreakAny, hasBreak]

/-- A stack that passes the test has no line break, whatever its width. -/
theorem hasBreakAny_of_fitsWithin {remaining : Int} {stack : List Document}
    (h : fitsWithin columns tab remaining stack = true) : hasBreakAny stack = false := by
  fun_induction fitsWithin columns tab remaining stack
  case case1 => rfl
  case case2 | case4 | case5 | case7 | case9 | case10 | case12 => cases h
  case case3 ih | case8 ih =>
    rw [hasBreakAny, hasBreak, ih h, Bool.false_or]
  case case6 hbreak left hleft ih =>
    rw [hasBreakAny, hasBreak, ih h, Bool.eq_false_of_not_eq_true hbreak, Bool.false_or]
  case case11 ih =>
    rw [hasBreakAny, hasBreak, ← hasBreakAny_append, ih h]
  case case13 ih =>
    rw [hasBreakAny, hasBreak]
    exact ih h

/-! ### The fit test in machine words -/

/-- Numbers that are added one after another do not overflow if the whole sum is a word. -/
theorem Word.foldlM_add_of_lt (f : Char → Nat) (cs : List Char) (sum : Nat)
    (h : sum + cs.foldr (fun c rest => f c + rest) 0 < Config.wordSize) :
    cs.foldlM (fun sum c => Word.add sum (f c)) sum
      = .ok (sum + cs.foldr (fun c rest => f c + rest) 0) := by
  induction cs generalizing sum with
  | nil => rfl
  | cons c cs ih =>
    rw [List.foldr_cons, ← Nat.add_assoc] at h ⊢
    rw [List.foldlM_cons, Word.add_of_lt (by omega)]
    exact ih _ h

/-- The width of a text does not overflow on the way if it is a word in the end. -/
theorem Text.textWidthWith?_of_lt {t : String}
    (h : Text.textWidthWith columns tab t < Config.wordSize) :
    Text.textWidthWith? columns tab t = .ok (Text.textWidthWith columns tab t) := by
  have hsum := Word.foldlM_add_of_lt (fun c => if c = '\t' then tab else columns c) t.toList 0
  rw [Nat.zero_add] at hsum
  exact hsum h

/-- A width can be taken off a budget that is not overdrawn. -/
theorem Word.sub_of_le {remaining : Int} {width : Nat} (hlo : 0 ≤ remaining)
    (hhi : remaining < 2 ^ 63) (hwidth : width < 2 ^ 63) :
    Word.sub remaining (signedWord width) = .ok (remaining - signedWord width) := by
  have hword : ((Config.wordSize : Nat) : Int) = 2 ^ 64 := by norm_num [Config.wordSize]
  rw [signedWord_of_lt hwidth]
  exact if_pos (Int.bmod_eq_of_le (by rw [hword]; omega) (by rw [hword]; omega))

/-- A budget only shrinks, so it stays a signed word. -/
theorem sub_signedWord_lt {remaining : Int} {width : Nat} (hhi : remaining < 2 ^ 63)
    (hwidth : width < 2 ^ 63) : remaining - signedWord width < 2 ^ 63 := by
  rw [signedWord_of_lt hwidth]
  omega

/-- A signed word is below `2 ^ 63`. -/
theorem signedWord_lt (n : Nat) : signedWord n < 2 ^ 63 := by
  have hword : ((Nat.pow 2 64 : Nat) : Int) = 2 ^ 64 := by norm_num
  have hlt := Int.bmod_lt (x := n) (m := Nat.pow 2 64) (by norm_num)
  unfold signedWord
  rw [hword] at hlt
  omega

/-- The test of a stack that is narrow enough does not overflow. -/
theorem fitsWithin?_of_lt {remaining : Int} {stack : List Document} (hlo : 0 ≤ remaining)
    (hhi : remaining < 2 ^ 63) (hwidth : flatWidthAll columns tab stack < 2 ^ 63) :
    fitsWithin? columns tab remaining stack = .ok (fitsWithin columns tab remaining stack) := by
  have hword : (2 : Nat) ^ 63 < Config.wordSize := by norm_num [Config.wordSize]
  have hone : signedWord 1 = 1 := signedWord_of_lt (by norm_num)
  fun_induction fitsWithin columns tab remaining stack
  case case1 => rw [fitsWithin?]
  -- A token, a text or a space that overdraws the budget.
  case case2 hleft =>
    rw [flatWidthAll, flatWidth] at hwidth
    rw [fitsWithin?, Word.sub_of_le hlo hhi (by omega)]
    exact if_pos hleft
  case case5 hbreak left hleft =>
    rw [flatWidthAll, flatWidth] at hwidth
    rw [fitsWithin?, if_neg hbreak, Text.textWidthWith?_of_lt (by omega)]
    show (Word.sub _ _ >>= _) = _
    rw [Word.sub_of_le hlo hhi (by omega)]
    exact if_pos hleft
  case case7 hleft =>
    rw [fitsWithin?, ← hone, Word.sub_of_le hlo hhi (by norm_num), hone]
    exact if_pos hleft
  -- One that does not.
  case case3 left hleft ih =>
    rw [flatWidthAll, flatWidth] at hwidth
    rw [fitsWithin?, Word.sub_of_le hlo hhi (by omega)]
    refine (if_neg hleft).trans (ih (by omega) (sub_signedWord_lt hhi (by omega)) (by omega))
  case case6 hbreak left hleft ih =>
    rw [flatWidthAll, flatWidth] at hwidth
    rw [fitsWithin?, if_neg hbreak, Text.textWidthWith?_of_lt (by omega)]
    show (Word.sub _ _ >>= _) = _
    rw [Word.sub_of_le hlo hhi (by omega)]
    exact (if_neg hleft).trans (ih (by omega) (sub_signedWord_lt hhi (by omega)) (by omega))
  case case8 left hleft ih =>
    rw [flatWidthAll, flatWidth] at hwidth
    rw [fitsWithin?, ← hone, Word.sub_of_le hlo hhi (by norm_num), hone]
    exact (if_neg hleft).trans (ih (by omega) (by omega) (by omega))
  -- A line break.
  case case4 hbreak => rw [fitsWithin?, if_pos hbreak]
  case case9 => rw [fitsWithin?]
  -- The budget is not negative.
  case case10 hneg | case12 hneg => exact absurd hneg (not_lt.mpr hlo)
  case case11 hneg ih =>
    rw [flatWidthAll, flatWidth, ← flatWidthAll_append] at hwidth
    rw [fitsWithin?, if_neg hneg, ih hlo hhi hwidth]
  case case13 hneg ih =>
    rw [flatWidthAll, flatWidth, ← flatWidthAll] at hwidth
    rw [fitsWithin?, if_neg hneg, ih hlo hhi hwidth]

variable {o : PrintOptions}

/-- A document that fits has no line break. -/
theorem hasBreak_of_fits {d : Document} (h : fits columns o d = true) : d.hasBreak = false := by
  have hbreak := hasBreakAny_of_fitsWithin h
  rwa [hasBreakAny, hasBreakAny, Bool.or_false] at hbreak

/-- **A document fits exactly if it has no line break and is not wider than a line.** No word
    overflows in the test of such a document. -/
theorem fits_iff_flatWidth_le (columns : Char → Nat) (o : PrintOptions) (d : Document)
    (hline : o.lineWidth ≤ 2 ^ 63 - 1) (hwidth : d.flatWidth columns o.indentWidth < 2 ^ 63) :
    (fits columns o d = true ↔
        d.hasBreak = false ∧ d.flatWidth columns o.indentWidth ≤ o.lineWidth) ∧
      fits? columns o d = .ok (fits columns o d) := by
  have hall : flatWidthAll columns o.indentWidth [d] = d.flatWidth columns o.indentWidth := rfl
  have hword : signedWord o.lineWidth = o.lineWidth := signedWord_of_lt (by omega)
  constructor
  · rw [fits, hword, fitsWithin_iff (Int.natCast_nonneg _) (hall ▸ hwidth), hall, hasBreakAny,
      hasBreakAny, Bool.or_false, Int.ofNat_le]
  · exact fitsWithin?_of_lt (hword ▸ Int.natCast_nonneg _) (signedWord_lt _) (hall ▸ hwidth)

/-- A tag with wide characters and, in a group of its own, a tab. -/
def wideTag : Document :=
  groupOf 1 [token "<", text "世界", space, groupOf 1 [text "a\tb"], token ">"]

/-- With tabs of four columns the tag takes 13: it fits on a line of that width and on none that is
    shorter. -/
theorem fits_wideTag :
    (fits Text.charWidth ⟨13, 4, false⟩ wideTag = true ∧
        fits? Text.charWidth ⟨13, 4, false⟩ wideTag = .ok true) ∧
      fits Text.charWidth ⟨12, 4, false⟩ wideTag = false := by
  have hwidth : wideTag.flatWidth Text.charWidth 4 = 13 := by decide +kernel
  have hlt : wideTag.flatWidth Text.charWidth 4 < 2 ^ 63 := by
    rw [hwidth]
    norm_num
  obtain ⟨hfits, hok⟩ :=
    fits_iff_flatWidth_le Text.charWidth ⟨13, 4, false⟩ wideTag (by norm_num) hlt
  obtain ⟨hnarrow, -⟩ :=
    fits_iff_flatWidth_le Text.charWidth ⟨12, 4, false⟩ wideTag (by norm_num) hlt
  rw [hwidth] at hfits hnarrow
  have hwide := hfits.mpr ⟨by decide +kernel, le_rfl⟩
  exact ⟨⟨hwide, hwide ▸ hok⟩,
    Bool.eq_false_iff.mpr fun h => absurd (hnarrow.mp h).2 (by norm_num)⟩

end TreeLint
