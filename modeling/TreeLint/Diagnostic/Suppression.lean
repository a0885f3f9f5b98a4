import TreeLint.Diagnostic.Basic
import TreeLint.Text.Blank

namespace TreeLint

/-!
# Suppression directives

A comment can hide the diagnostics of the node that follows it. Its text is the word
`weft-ignore`, alone or followed by the categories to hide.

* `Suppression` says which categories are hidden: all, or the listed ones.
* `Suppression.parse?` reads the text of a comment.
-/

/-- The word that makes a comment a directive. -/
def suppressionWord : String := "weft-ignore"

/-- A set of hidden categories. -/
inductive Suppression where
  | all
  | only (categories : List Category)

namespace Suppression

/-- The suppression hides the category. -/
def covers : Suppression → Category → Bool
  | all, _ => true
  | only categories, c => categories.contains c

/-- Every category is hidden by definition, not because all are listed. -/
def isAll : Suppression → Bool
  | all => true
  | only _ => false

/-- Read the text of a comment. The word must stand at the start and end there or before a blank;
    the words after it are the categories. -/
def parse? (comment : String) : Option Suppression :=
  match Text.dropStart? suppressionWord.toList (Text.trimChars comment.toList) with
  | none => none
  | some rest =>
    if rest.head?.all Text.isBlank then
      match Text.wordsFrom [] rest with
      | [] => some all
      | words => some (only (words.map fun w => ⟨String.ofList w⟩))
    else none

end Suppression

end TreeLint
