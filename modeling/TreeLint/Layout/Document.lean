import TreeLint.Text.Quoted

namespace TreeLint

/-!
# Layout documents

A document describes a text without fixing its line breaks.

* A `token` is a fixed piece of text, measured in bytes; a `text` comes from a node and is measured
  in columns.
* A `space` can become a line break, when the group that it belongs to is broken; a `lineBreak`
  always is one.
* `Document.flat` is the text of a document with all its spaces as spaces.
-/

/-- A text whose line breaks are not fixed. -/
inductive Document where
  | token (text : String)
  | text (value : String)
  | concat (parts : List Document)
  | space
  | lineBreak
  /-- A unit that is laid out flat or broken; its line breaks are indented by `levels` more. -/
  | group (contents : Document) (levels : UInt8)

namespace Document

/-- A group of several documents in a row. -/
def groupOf (levels : UInt8) (parts : List Document) : Document := group (concat parts) levels

mutual

/-- The document has no text and no breaks. -/
def isEmpty : Document → Bool
  | token t => t.isEmpty
  | text t => t.isEmpty
  | concat ds => isEmptyAll ds
  | space => false
  | lineBreak => false
  | group d _ => isEmpty d

/-- All documents are without text and breaks. -/
def isEmptyAll : List Document → Bool
  | [] => true
  | d :: ds => isEmpty d && isEmptyAll ds

end

mutual

/-- A line break occurs somewhere inside, by itself or in a text. -/
def hasBreak : Document → Bool
  | token _ => false
  | text t => t.toList.contains '\n'
  | concat ds => hasBreakAny ds
  | space => false
  | lineBreak => true
  | group d _ => hasBreak d

/-- A line break occurs somewhere inside the documents. -/
def hasBreakAny : List Document → Bool
  | [] => false
  | d :: ds => hasBreak d || hasBreakAny ds

end

mutual

/-- The flat text: spaces are spaces, nothing is indented. -/
def flat : Document → String
  | token t => t
  | text t => t
  | concat ds => flatAll ds
  | space => " "
  | lineBreak => "\n"
  | group d _ => flat d

/-- The flat texts one after another. -/
def flatAll : List Document → String
  | [] => ""
  | d :: ds => flat d ++ flatAll ds

end

mutual

/-- The number of constructors, which bounds the work of a search through the document. -/
def size : Document → Nat
  | token _ => 1
  | text _ => 1
  | concat ds => 1 + sizeAll ds
  | space => 1
  | lineBreak => 1
  | group d _ => 1 + size d

/-- The number of constructors of several documents. -/
def sizeAll : List Document → Nat
  | [] => 0
  | d :: ds => size d + sizeAll ds

end

/-- The sizes of two rows add up. -/
theorem sizeAll_append (ds es : List Document) :
    sizeAll (ds ++ es) = sizeAll ds + sizeAll es := by
  induction ds with
  | nil => simp [sizeAll]
  | cons d ds ih => simp only [List.cons_append, sizeAll, ih]; omega

/-! ### Tokens -/

/-- Why a text cannot be a token. -/
inductive TokenFault where
  | notAscii (text : String)
  | hasBreak (text : String)
  deriving DecidableEq

/-- The wording of a fault. -/
def TokenFault.message : TokenFault → String
  | notAscii t => "Token must be ASCII only, got: " ++ Text.quoted t
  | hasBreak t => "Token cannot contain newlines/tabs, use Break/Space instead: " ++ Text.quoted t

/-- The token of a text, which must be ASCII and have no line break or tab. -/
def token? (t : String) : Except TokenFault Document :=
  if t.toList.all (·.toNat < 128) then
    if t.toList.any fun c => c = '\n' || c = '\r' || c = '\t' then .error (.hasBreak t)
    else .ok (token t)
  else .error (.notAscii t)

end Document

end TreeLint
