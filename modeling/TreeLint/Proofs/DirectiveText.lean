import Mathlib
import TreeLint.Diagnostic.Suppression

namespace TreeLint

/-!
# The grammar of suppression directives

A directive is the word `weft-ignore` with blanks before it, after which the listed words follow,
each after one blank or more, and then blanks to the end.

* `Text.Lists` is the grammar of the list of words, and `lists_iff` says that splitting at blanks
  reads it: any text that is empty or begins with a blank is a list, of exactly one list of words.
* `trimChars_word`: trimming takes the blanks off both ends and leaves the word alone. What it
  takes off at the end makes no difference to the words (`wordsFrom_append_blanks`).
* `Suppression.IsDirective` is the grammar of directives and `Suppression.write` writes one.
* `parse?_reads_directives` is the result: a comment is read if and only if it is a directive, and
  then covers the categories that are listed, or all if none is.
-/

namespace Text

/-- All characters are blank. -/
def Blanks (cs : List Char) : Prop := ∀ c ∈ cs, isBlank c = true

/-- A word has characters, and none of them is blank. -/
def IsWord (w : List Char) : Prop := w ≠ [] ∧ ∀ c ∈ w, isBlank c = false

/-- The text lists the words: each one stands after one blank or more, and blanks may follow the
    last one. -/
inductive Lists : List (List Char) → List Char → Prop
  | done {gap : List Char} : Blanks gap → Lists [] gap
  | word {gap w rest : List Char} {ws : List (List Char)} :
      gap ≠ [] → Blanks gap → IsWord w → Lists ws rest → Lists (w :: ws) (gap ++ w ++ rest)

variable {cs gap w rest trail : List Char} {ws : List (List Char)}

/-- The text is empty or begins with a blank. -/
abbrev BeginsBlank (cs : List Char) : Prop := cs.head?.all isBlank = true

/-! ### Splitting at blanks -/

/-- Blanks end the word that has been begun, if any. -/
theorem wordsFrom_blanks (h : Blanks gap) (w : List Char) :
    wordsFrom w gap = if w.isEmpty then [] else [w] := by
  induction gap generalizing w with
  | nil => rfl
  | cons c gap ih =>
    obtain ⟨hc, hgap⟩ := List.forall_mem_cons.mp h
    rw [wordsFrom, if_pos hc, ih hgap]
    simp

/-- Blanks before the next word are passed over. -/
theorem wordsFrom_blanks_append (h : Blanks gap) (cs : List Char) :
    wordsFrom [] (gap ++ cs) = wordsFrom [] cs := by
  induction gap with
  | nil => rfl
  | cons c gap ih =>
    obtain ⟨hc, hgap⟩ := List.forall_mem_cons.mp h
    rw [List.cons_append, wordsFrom, if_pos hc, ih hgap]
    rfl

/-- A word is read to its end. -/
theorem wordsFrom_word_append (hw : ∀ c ∈ w, isBlank c = false) (start cs : List Char) :
    wordsFrom start (w ++ cs) = wordsFrom (start ++ w) cs := by
  induction w generalizing start with
  | nil => simp
  | cons c w ih =>
    obtain ⟨hc, hw⟩ := List.forall_mem_cons.mp hw
    rw [List.cons_append, wordsFrom, hc, if_neg Bool.false_ne_true, ih hw, List.append_assoc]
    rfl

/-- A word ends at a blank or at the end of the text. -/
theorem wordsFrom_of_beginsBlank (hne : w ≠ []) (h : BeginsBlank cs) :
    wordsFrom w cs = w :: wordsFrom [] cs := by
  cases cs with
  | nil => simp [wordsFrom, hne]
  | cons c cs =>
    have hc : isBlank c = true := by simpa [BeginsBlank] using h
    simp [wordsFrom, hc, hne]

/-- Blanks at the end make no difference. -/
theorem wordsFrom_append_blanks (h : Blanks trail) (w cs : List Char) :
    wordsFrom w (cs ++ trail) = wordsFrom w cs := by
  induction cs generalizing w with
  | nil => exact wordsFrom_blanks h w
  | cons c cs ih =>
    rw [List.cons_append, wordsFrom, wordsFrom, ih, ih]

/-! ### Lists of words -/

/-- A gap begins with a blank, whatever follows. -/
theorem beginsBlank_append (hne : gap ≠ []) (h : Blanks gap) (cs : List Char) :
    BeginsBlank (gap ++ cs) := by
  cases gap with
  | nil => exact absurd rfl hne
  | cons c gap => simpa [BeginsBlank] using h c List.mem_cons_self

theorem Blanks.beginsBlank (h : Blanks gap) : BeginsBlank gap := by
  cases gap with
  | nil => rfl
  | cons c gap => simpa [BeginsBlank] using h c List.mem_cons_self

/-- Blanks at the end make no difference to how a text begins. -/
theorem beginsBlank_append_blanks (h : Blanks trail) (cs : List Char) :
    BeginsBlank (cs ++ trail) ↔ BeginsBlank cs := by
  cases cs with
  | nil => exact iff_of_true h.beginsBlank rfl
  | cons c cs => rfl

/-- Before each word there is a gap, and after the last there may be one. -/
theorem Lists.beginsBlank (h : Lists ws cs) : BeginsBlank cs := by
  cases h with
  | done hgap => exact hgap.beginsBlank
  | word hne hgap hw hrest =>
    rw [List.append_assoc]
    exact beginsBlank_append hne hgap _

/-- The words of a list are read back. -/
theorem Lists.wordsFrom_eq (h : Lists ws cs) : wordsFrom [] cs = ws := by
  induction h with
  | done hgap => exact wordsFrom_blanks hgap []
  | word hne hgap hw hrest ih =>
    rw [List.append_assoc, wordsFrom_blanks_append hgap, wordsFrom_word_append hw.2,
      List.nil_append, wordsFrom_of_beginsBlank hw.1 hrest.beginsBlank, ih]

/-- A word that has been begun has blanks before it. -/
theorem ne_nil_of_beginsBlank (hw : IsWord w) (h : BeginsBlank (gap ++ w ++ cs)) : gap ≠ [] := by
  rintro rfl
  cases w with
  | nil => exact hw.1 rfl
  | cons c w =>
    have hc : isBlank c = false := hw.2 c List.mem_cons_self
    simp [BeginsBlank, hc] at h

/-- What is read lists what was read. The blanks `gap` and the beginning `w` of a word have been
    passed already. -/
theorem lists_wordsFrom (gap w cs : List Char) (hgap : Blanks gap)
    (hw : ∀ c ∈ w, isBlank c = false) (hbegins : BeginsBlank (gap ++ w ++ cs)) :
    Lists (wordsFrom w cs) (gap ++ w ++ cs) := by
  -- The induction moves characters from the text to the word, or to the blanks before it.
  induction cs generalizing gap w with
  | nil =>
    rw [wordsFrom]
    by_cases hne : w = []
    · subst hne
      simpa using Lists.done hgap
    · have hlast : Lists [] [] := .done (by simp [Blanks])
      simpa [hne] using Lists.word (ne_nil_of_beginsBlank ⟨hne, hw⟩ hbegins) hgap ⟨hne, hw⟩ hlast
  | cons c cs ih =>
    rw [wordsFrom]
    by_cases hc : isBlank c = true
    · rw [if_pos hc]
      by_cases hne : w = []
      · -- One more blank before the next word.
        subst hne
        have hmore : Blanks (gap ++ [c]) := by
          rw [Blanks, List.forall_mem_append, List.forall_mem_singleton]
          exact ⟨hgap, hc⟩
        have hlists := ih (gap ++ [c]) [] hmore (by simp)
          (by simpa using beginsBlank_append (by simp) hmore cs)
        simpa using hlists
      · -- The word ends here, and the blank is the first one before the next word.
        have hone : Blanks [c] := by simpa [Blanks] using hc
        have hrest := ih [c] [] hone (by simp) (by simp [BeginsBlank, hc])
        simpa [hne] using Lists.word (ne_nil_of_beginsBlank ⟨hne, hw⟩ hbegins) hgap ⟨hne, hw⟩ hrest
    · rw [if_neg hc]
      have hmore : ∀ d ∈ w ++ [c], isBlank d = false := by
        rw [List.forall_mem_append, List.forall_mem_singleton]
        exact ⟨hw, Bool.eq_false_iff.mpr hc⟩
      have hlists := ih gap (w ++ [c]) hgap hmore (by simpa using hbegins)
      simpa using hlists

/-- **Splitting at blanks reads lists of words**, and every text that is empty or begins with a
    blank is such a list. -/
theorem lists_iff : Lists ws cs ↔ BeginsBlank cs ∧ wordsFrom [] cs = ws := by
  constructor
  · intro h
    exact ⟨h.beginsBlank, h.wordsFrom_eq⟩
  · rintro ⟨hbegins, rfl⟩
    simpa using lists_wordsFrom [] [] cs (by simp [Blanks]) (by simp) (by simpa using hbegins)

/-! ### Trimming -/

/-- What is left is what follows the start. -/
theorem dropStart?_eq_some_iff {start cs rest : List Char} :
    dropStart? start cs = some rest ↔ cs = start ++ rest := by
  fun_induction dropStart? start cs with
  | case1 cs => simp [eq_comm]
  | case2 s start => simp
  | case3 start c cs ih => simpa using ih
  | case4 s start c cs hne => simp [Ne.symm hne]

theorem trimChars_eq (cs : List Char) :
    trimChars cs = (cs.dropWhile isBlank).rdropWhile isBlank := rfl

/-- What is taken off is blank. -/
theorem exists_eq_append_trimChars (cs : List Char) :
    ∃ lead trail, cs = lead ++ trimChars cs ++ trail ∧ Blanks lead ∧ Blanks trail := by
  refine ⟨cs.takeWhile isBlank, (cs.dropWhile isBlank).rtakeWhile isBlank, ?_, ?_, ?_⟩
  · rw [trimChars_eq, List.append_assoc, List.rdropWhile_append_rtakeWhile,
      List.takeWhile_append_dropWhile]
  · exact fun c hc => List.mem_takeWhile_imp hc
  · exact fun c hc => List.mem_rtakeWhile_imp hc

/-- Blanks at the end are taken off what follows a word only. -/
theorem rdropWhile_word_append (hw : IsWord w) (cs : List Char) :
    (w ++ cs).rdropWhile isBlank = w ++ cs.rdropWhile isBlank := by
  induction cs using List.reverseRecOn with
  | nil =>
    rw [List.append_nil, List.rdropWhile_nil, List.append_nil, List.rdropWhile_eq_self_iff]
    intro hne
    rw [hw.2 _ (List.getLast_mem hne)]
    exact Bool.false_ne_true
  | append_singleton cs c ih =>
    rw [← List.append_assoc, List.rdropWhile_concat, List.rdropWhile_concat]
    split
    · exact ih
    · rw [List.append_assoc]

/-- **Trimming leaves a word between blanks alone**, with what follows it up to the last blanks. -/
theorem trimChars_word (hgap : Blanks gap) (hw : IsWord w) (cs : List Char) :
    trimChars (gap ++ w ++ cs) = w ++ cs.rdropWhile isBlank := by
  have hdrop : (gap ++ w ++ cs).dropWhile isBlank = w ++ cs := by
    obtain ⟨c, w', rfl⟩ := List.exists_cons_of_ne_nil hw.1
    have hc : isBlank c = false := hw.2 c List.mem_cons_self
    have hnil : gap.dropWhile isBlank = [] := List.dropWhile_eq_nil_iff.mpr hgap
    rw [List.append_assoc, List.dropWhile_append, hnil]
    simp [hc]
  rw [trimChars_eq, hdrop, rdropWhile_word_append hw]

end Text

namespace Suppression

open Text

/-- The word that opens a directive has no blanks. -/
theorem isWord_suppressionWord : IsWord suppressionWord.toList := by
  constructor
  · decide
  · simp [suppressionWord, isBlank]

/-- The comment is a directive that lists the words. -/
def IsDirective (words : List String) (comment : String) : Prop :=
  ∃ lead tail, comment.toList = lead ++ suppressionWord.toList ++ tail ∧ Blanks lead ∧
    Lists (words.map String.toList) tail

/-- What the directive that lists the words hides. -/
def ofWords : List String → Suppression
  | [] => all
  | w :: ws => only ((w :: ws).map Category.mk)

/-- A directive without words covers all categories, any other those that it names. -/
theorem covers_ofWords (words : List String) (category : Category) :
    (ofWords words).covers category = true ↔ words = [] ∨ category.id ∈ words := by
  cases words with
  | nil => simp [ofWords, covers]
  | cons w ws =>
    have hid : ∀ s, Category.mk s = category ↔ s = category.id := by
      intro s
      cases category
      simp
    show ((w :: ws).map Category.mk).contains category = true ↔ _
    rw [List.contains_iff_mem, List.mem_map]
    simp only [hid]
    simp

/-- A directive is read. -/
theorem parse?_of_isDirective {words : List String} {comment : String}
    (h : IsDirective words comment) : parse? comment = some (ofWords words) := by
  obtain ⟨lead, tail, hcomment, hlead, hlists⟩ := h
  have hsplit : tail.rdropWhile isBlank ++ tail.rtakeWhile isBlank = tail :=
    List.rdropWhile_append_rtakeWhile
  have hblanks : Blanks (tail.rtakeWhile isBlank) := fun c hc => List.mem_rtakeWhile_imp hc
  have hdrop : dropStart? suppressionWord.toList (trimChars comment.toList)
      = some (tail.rdropWhile isBlank) := by
    rw [dropStart?_eq_some_iff, hcomment]
    exact trimChars_word hlead isWord_suppressionWord tail
  have hbegins : BeginsBlank (tail.rdropWhile isBlank) := by
    rw [← beginsBlank_append_blanks hblanks, hsplit]
    exact hlists.beginsBlank
  have hwords : wordsFrom [] (tail.rdropWhile isBlank) = words.map String.toList := by
    rw [← wordsFrom_append_blanks hblanks, hsplit]
    exact hlists.wordsFrom_eq
  unfold parse?
  rw [hdrop]
  simp only [if_pos hbegins, hwords]
  cases words with
  | nil => rfl
  | cons w ws => simp [ofWords]

/-- What is read is a directive. -/
theorem exists_isDirective_of_parse? {comment : String} {s : Suppression}
    (h : parse? comment = some s) : ∃ words, IsDirective words comment := by
  unfold parse? at h
  cases hdrop : dropStart? suppressionWord.toList (trimChars comment.toList) with
  | none => rw [hdrop] at h; simp at h
  | some rest =>
    rw [hdrop] at h
    have hbegins : BeginsBlank rest := by
      by_contra hnot
      simp only [if_neg hnot] at h
      exact absurd h.symm (Option.some_ne_none s)
    obtain ⟨lead, trail, hcomment, hlead, htrail⟩ := exists_eq_append_trimChars comment.toList
    rw [dropStart?_eq_some_iff.mp hdrop] at hcomment
    -- The blanks that were trimmed belong to the list again.
    refine ⟨(wordsFrom [] (rest ++ trail)).map String.ofList, lead, rest ++ trail, ?_, hlead, ?_⟩
    · rw [hcomment]
      simp
    · rw [List.map_map, lists_iff]
      refine ⟨(beginsBlank_append_blanks htrail rest).mpr hbegins, ?_⟩
      simp [Function.comp_def]

/-- Write a directive: blanks, the word, each item of the listing with the blanks before it, and
    blanks at the end. -/
def write (lead : String) (listing : List (String × String)) (trail : String) : String :=
  listing.foldl (fun text p => text ++ p.1 ++ p.2) (lead ++ suppressionWord) ++ trail

/-- A listing is written one pair after the other. -/
theorem toList_foldl_write (listing : List (String × String)) (text : String) :
    (listing.foldl (fun text p => text ++ p.1 ++ p.2) text).toList
      = text.toList ++ listing.flatMap fun p => p.1.toList ++ p.2.toList := by
  induction listing generalizing text with
  | nil => simp
  | cons p listing ih =>
    rw [List.foldl_cons, ih]
    simp

/-- What is written is a directive. -/
theorem isDirective_write {lead trail : String} {listing : List (String × String)}
    (hlead : Blanks lead.toList) (htrail : Blanks trail.toList)
    (hgaps : ∀ p ∈ listing, p.1 ≠ "" ∧ Blanks p.1.toList)
    (hwords : ∀ p ∈ listing, IsWord p.2.toList) :
    IsDirective (listing.map (·.2)) (write lead listing trail) := by
  have hlists : Lists ((listing.map (·.2)).map String.toList)
      ((listing.flatMap fun p => p.1.toList ++ p.2.toList) ++ trail.toList) := by
    induction listing with
    | nil => exact .done htrail
    | cons p listing ih =>
      obtain ⟨⟨hne, hblanks⟩, hgaps⟩ := List.forall_mem_cons.mp hgaps
      obtain ⟨hword, hwords⟩ := List.forall_mem_cons.mp hwords
      have hrest := ih hgaps hwords
      simpa using Lists.word (by simpa using hne) hblanks hword hrest
  refine ⟨lead.toList, _, ?_, hlead, hlists⟩
  rw [write, String.toList_append, toList_foldl_write, String.toList_append, List.append_assoc]

/-- **Directives.** A comment is read if and only if it is a directive: blanks, the word, and a list
    of words. It then covers every category if no word is listed, and else the categories that are
    listed. So whatever set of identifiers is written as a directive, in any order, with repetitions
    and with any blanks between them, the categories that are covered are those of the set. -/
theorem parse?_reads_directives :
    (∀ comment, (parse? comment).isSome = true ↔ ∃ words, IsDirective words comment) ∧
    (∀ comment words, IsDirective words comment → ∃ s, parse? comment = some s ∧
      ∀ category, s.covers category = true ↔ words = [] ∨ category.id ∈ words) ∧
    ∀ (ids : Finset String) (lead trail : String) (listing : List (String × String)),
      ids.Nonempty → (∀ id ∈ ids, IsWord id.toList) → (listing.map (·.2)).toFinset = ids →
      Blanks lead.toList → Blanks trail.toList →
      (∀ p ∈ listing, p.1 ≠ "" ∧ Blanks p.1.toList) →
        ∃ s, parse? (write lead listing trail) = some s ∧
          ∀ category, s.covers category = true ↔ category.id ∈ ids := by
  have hcovers : ∀ comment words, IsDirective words comment → ∃ s, parse? comment = some s ∧
      ∀ category, s.covers category = true ↔ words = [] ∨ category.id ∈ words :=
    fun comment words h => ⟨ofWords words, parse?_of_isDirective h, covers_ofWords words⟩
  refine ⟨?_, hcovers, ?_⟩
  · intro comment
    rw [Option.isSome_iff_exists]
    constructor
    · rintro ⟨s, hs⟩
      exact exists_isDirective_of_parse? hs
    · rintro ⟨words, hwords⟩
      exact ⟨_, parse?_of_isDirective hwords⟩
  · rintro ids lead trail listing hids hwords rfl hlead htrail hgaps
    have hlisted : ∀ p ∈ listing, IsWord p.2.toList := fun p hp =>
      hwords p.2 (List.mem_toFinset.mpr (List.mem_map_of_mem hp))
    obtain ⟨s, hs, hcovered⟩ := hcovers _ _ (isDirective_write hlead htrail hgaps hlisted)
    -- Words are listed, so the directive is not one for all categories.
    have hne : listing.map (·.2) ≠ [] := by
      rintro hnil
      rw [hnil] at hids
      simp at hids
    refine ⟨s, hs, fun category => ?_⟩
    rw [hcovered, List.mem_toFinset]
    simp only [hne, false_or]

/-- Items of the sample, one of them twice, with a tab, two blanks and a wide blank before them. -/
def sampleListing : List (String × String) := [("\t", "B"), ("  ", "A"), ("\u3000", "B")]

/-- The sample covers two categories. A longer word is no directive, and neither is one after other
    text. -/
theorem parse?_reads_directives_sample :
    (∃ s, parse? (write " " sampleListing "\n") = some s ∧
      ∀ category, s.covers category = true ↔ category.id ∈ ({"A", "B"} : Finset String)) ∧
    (¬ ∃ words, IsDirective words "weft-ignored A") ∧
    ¬ ∃ words, IsDirective words "todo: weft-ignore A" := by
  obtain ⟨hread, -, hwritten⟩ := parse?_reads_directives
  refine ⟨hwritten {"A", "B"} " " "\n" sampleListing ?_ ?_ ?_ ?_ ?_ ?_, ?_, ?_⟩
  · exact ⟨"A", by decide⟩
  · simp [IsWord, isBlank]
  · decide
  · simp [Blanks, isBlank]
  · simp [Blanks, isBlank]
  · simp [sampleListing, Blanks, isBlank]
  · rw [← hread]
    decide +kernel
  · rw [← hread]
    decide +kernel

end Suppression

end TreeLint
