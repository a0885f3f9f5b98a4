import Mathlib
import TreeLint.Layout.Checked
import TreeLint.Proofs.Document

namespace TreeLint

/-!
# Counting in machine words and without bounds

`Document.print?` counts in machine words, `Document.print` without bounds.

* `Computes x a`: the computation `x` gives `a`, unless a word overflows.
* `computes_printOn?`, and after it `computes_print?` and `computes_format?`: printing in words
  gives what printing without bounds gives. What is proved of the one holds of the other whenever
  it gives a text.
-/

open Document

/-! ### Computations that may overflow -/

/-- The computation gives `a` or overflows. -/
def Computes {α : Type} (x : Except Overflow α) (a : α) : Prop := ∀ b, x = .ok b → b = a

/-- A result that is there is the one that is computed. -/
theorem computes_ok {α : Type} (a : α) : Computes (.ok a) a := fun _ h => (Except.ok.inj h).symm

/-- One computation after another. -/
theorem Computes.bind {α β : Type} {x : Except Overflow α} {a : α} {f : α → Except Overflow β}
    {b : β} (hx : Computes x a) (hf : Computes (f a) b) : Computes (x >>= f) b := by
  cases x with
  | error e =>
    intro b' h
    cases h
  | ok a' =>
    obtain rfl := hx a' rfl
    exact hf

/-- What comes after a computation works on its result. -/
theorem bind_eq_ok {α β : Type} {x : Except Overflow α} {f : α → Except Overflow β} {b : β} :
    x >>= f = .ok b ↔ ∃ a, x = .ok a ∧ f a = .ok b := by
  cases x with
  | error e =>
    constructor
    · intro h
      cases h
    · rintro ⟨a, h, -⟩
      cases h
  | ok a =>
    refine ⟨fun h => ⟨a, rfl, h⟩, ?_⟩
    rintro ⟨a', h, hf⟩
    cases h
    exact hf

/-- A fold of computations is the fold of their results. -/
theorem computes_foldlM {α β : Type} {f : β → α → Except Overflow β} {g : β → α → β}
    (h : ∀ b a, Computes (f b a) (g b a)) (xs : List α) (b : β) :
    Computes (xs.foldlM f b) (xs.foldl g b) := by
  induction xs generalizing b with
  | nil => exact computes_ok b
  | cons x xs ih =>
    rw [List.foldlM_cons, List.foldl_cons]
    exact (h b x).bind (ih _)

/-- A sum of words is the sum of the numbers. -/
theorem computes_add (a b : Nat) : Computes (Word.add a b) (a + b) := by
  unfold Word.add
  split_ifs
  · exact computes_ok _
  · exact fun _ h => nomatch h

/-- A product of words is the product of the numbers. -/
theorem computes_mul (a b : Nat) : Computes (Word.mul a b) (a * b) := by
  unfold Word.mul
  split_ifs
  · exact computes_ok _
  · exact fun _ h => nomatch h

/-- A difference of signed words is the difference of the numbers. -/
theorem computes_sub (a b : Int) : Computes (Word.sub a b) (a - b) := by
  unfold Word.sub
  split_ifs
  · exact computes_ok _
  · exact fun _ h => nomatch h

/-- A sum that is a word does not overflow. -/
theorem Word.add_of_lt {a b : Nat} (h : a + b < Config.wordSize) : Word.add a b = .ok (a + b) :=
  if_pos h

/-- A product that is a word does not overflow. -/
theorem Word.mul_of_lt {a b : Nat} (h : a * b < Config.wordSize) : Word.mul a b = .ok (a * b) :=
  if_pos h

/-! ### Printing in words is printing -/

variable {columns : Char → Nat} {tab : Nat} {o : PrintOptions} {indent : Nat} {mode : Mode}

/-- The widths are added from the left in words and from the right without bounds. -/
theorem Text.foldl_width (cs : List Char) (sum : Nat) :
    cs.foldl (fun sum c => sum + if c = '\t' then tab else columns c) sum
      = sum + cs.foldr (fun c rest => (if c = '\t' then tab else columns c) + rest) 0 := by
  induction cs generalizing sum with
  | nil => rfl
  | cons c cs ih => rw [List.foldl_cons, ih, List.foldr_cons, Nat.add_assoc]

/-- The width of a text, added up in words, is its width. -/
theorem computes_textWidthWith? (t : String) :
    Computes (Text.textWidthWith? columns tab t) (Text.textWidthWith columns tab t) := by
  have h := computes_foldlM
    (fun sum c => computes_add sum (if c = '\t' then tab else columns c)) t.toList 0
  rwa [Text.foldl_width, Nat.zero_add] at h

namespace Page

/-- A character in words: only the column is counted. -/
theorem computes_put? (p : Page) (c : Char) (width : Nat) :
    Computes (p.put? c width) (p.put c width) :=
  (computes_add _ _).bind (computes_ok _)

theorem computes_putToken? (p : Page) (t : String) : Computes (p.putToken? t) (p.putToken t) :=
  (computes_add _ _).bind (computes_ok _)

/-- A line break in words: the line and the column are counted anew. -/
theorem computes_newLine? (levels : Nat) (p : Page) :
    Computes (p.newLine? o levels) (p.newLine o levels) :=
  (computes_add _ _).bind ((computes_mul _ _).bind (computes_ok _))

/-- The cases of a character of a text are the same in words. -/
theorem computes_putTextChar? (p : Page) (c : Char) :
    Computes (p.putTextChar? columns o c) (p.putTextChar columns o c) := by
  unfold putTextChar? putTextChar
  split_ifs
  · exact computes_newLine? 0 p
  · exact computes_ok p
  · exact computes_put? p c _
  · exact computes_put? p c _

/-- A text in words, character by character. -/
theorem computes_putText? (p : Page) (t : String) :
    Computes (p.putText? columns o t) (p.putText columns o t) :=
  computes_foldlM computes_putTextChar? t.toList p

end Page

/-- The fit test in words gives the answer of the test without bounds. Where a width or the budget
    overflows there is no answer. -/
theorem computes_fitsWithin? (remaining : Int) (stack : List Document) :
    Computes (fitsWithin? columns tab remaining stack)
      (fitsWithin columns tab remaining stack) := by
  fun_induction fitsWithin columns tab remaining stack
  case case1 =>
    rw [fitsWithin?]
    exact computes_ok true
  -- A token, a text or a space that overdraws the budget.
  case case2 hleft | case7 hleft =>
    rw [fitsWithin?]
    refine (computes_sub _ _).bind ?_
    rw [if_pos hleft]
    exact computes_ok false
  case case5 hbreak left hleft =>
    rw [fitsWithin?, if_neg hbreak]
    refine (computes_textWidthWith? _).bind ((computes_sub _ _).bind ?_)
    rw [if_pos hleft]
    exact computes_ok false
  -- One that does not.
  case case3 hleft ih | case8 hleft ih =>
    rw [fitsWithin?]
    refine (computes_sub _ _).bind ?_
    rw [if_neg hleft]
    exact ih
  case case6 hbreak left hleft ih =>
    rw [fitsWithin?, if_neg hbreak]
    refine (computes_textWidthWith? _).bind ((computes_sub _ _).bind ?_)
    rw [if_neg hleft]
    exact ih
  -- A line break.
  case case4 hbreak =>
    rw [fitsWithin?, if_pos hbreak]
    exact computes_ok false
  case case9 =>
    rw [fitsWithin?]
    exact computes_ok false
  -- A document with others inside.
  case case10 hneg | case12 hneg =>
    rw [fitsWithin?, if_pos hneg]
    exact computes_ok false
  case case11 hneg ih | case13 hneg ih =>
    rw [fitsWithin?, if_neg hneg]
    exact ih

/-- The same for the test of one document. -/
theorem computes_fits? (d : Document) : Computes (fits? columns o d) (fits columns o d) :=
  computes_fitsWithin? _ _

/-- The choice between the two layouts of a group is the same in words. Inside a flat group nothing
    is measured, so that nothing can overflow. -/
theorem computes_laysFlat? (d : Document) :
    Computes (laysFlat? columns o mode d) (decide (mode = .flat) || fits columns o d) := by
  unfold laysFlat?
  by_cases hmode : mode = .flat
  · rw [if_pos hmode, decide_eq_true hmode, Bool.true_or]
    exact computes_ok true
  · rw [if_neg hmode, decide_eq_false hmode, Bool.false_or]
    exact computes_fits? d

/-- **Printing in words is printing**, unless a word overflows. -/
theorem computes_printOn? (d : Document) (p : Page) :
    Computes (d.printOn? columns o indent mode p) (d.printOn columns o indent mode p) := by
  -- Over the document: each step computes what the step without bounds gives.
  induction d generalizing indent mode p with
  | token t => exact Page.computes_putToken? p t
  | text t => exact Page.computes_putText? p t
  | space =>
    rw [printOn?, printOn]
    split_ifs
    · exact Page.computes_newLine? indent p
    · exact Page.computes_put? p ' ' 1
  | lineBreak => exact Page.computes_newLine? indent p
  | group d levels ih =>
    rw [printOn?, printOn]
    exact (computes_add _ _).bind ((computes_laysFlat? d).bind (ih p))
  | concat ds ih =>
    rw [printOn?, printOn]
    induction ds generalizing p with
    | nil => exact computes_ok p
    | cons d ds ihds =>
      rw [printAllOn?, printAllOn]
      refine (ih d List.mem_cons_self p).bind ?_
      exact ihds (fun d' hd' => ih d' (List.mem_cons_of_mem d hd')) _

/-- Rows whose documents are printed alike one by one are printed alike. -/
theorem Document.printAllOn?_map {mode' : Mode} {f : Document → Document} {ds : List Document}
    (h : ∀ d ∈ ds, ∀ p,
      (f d).printOn? columns o indent mode p = d.printOn? columns o indent mode' p)
    (p : Page) :
    printAllOn? columns o indent mode (ds.map f) p = printAllOn? columns o indent mode' ds p := by
  induction ds generalizing p with
  | nil => rfl
  | cons d ds ih =>
    obtain ⟨hd, hds⟩ := List.forall_mem_cons.mp h
    rw [List.map_cons, printAllOn?, printAllOn?, hd]
    exact congrArg _ (funext fun p' => ih hds p')

/-- The text of a document in words is its text. -/
theorem computes_printWith? (columns : Char → Nat) (o : PrintOptions) (d : Document) :
    Computes (d.printWith? columns o) (d.printWith columns o) :=
  (computes_printOn? d Page.blank).bind (computes_ok _)

/-- The same with the widths that the printer uses. -/
theorem computes_print? (o : PrintOptions) (d : Document) : Computes (d.print? o) (d.print o) :=
  computes_printWith? Text.charWidth o d

/-- The text of a tree in words is its text. -/
theorem computes_formatWith? (columns : Char → Nat) (o : PrintOptions) (tree : Node) :
    Computes (formatWith? columns o tree) (formatWith columns o tree) :=
  computes_printWith? columns o _

/-- The same for trees. -/
theorem computes_format? (o : PrintOptions) (tree : Node) :
    Computes (format? o tree) (format o tree) :=
  computes_formatWith? Text.charWidth o tree

end TreeLint
