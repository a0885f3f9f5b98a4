import TreeLint.Layout.Formatter

namespace TreeLint

/-!
# Printing in machine words

The printer counts in machine words: levels, columns, lines and widths in unsigned ones, and what is
left of a line in a signed one. A result that is no such word stops it.

* `Word.add`, `Word.mul` and `Word.sub` are the operations, and `Overflow` says which of them
  failed.
* `Document.print?` and `format?` give the text that `Document.print` and `format` give, which count
  without bounds, or the first overflow on the way.
-/

/-- The operation of which the result is no machine word. -/
inductive Overflow where
  | add
  | sub
  | mul
  deriving DecidableEq

/-- The wording of an overflow. -/
def Overflow.message : Overflow → String
  | add => "attempt to add with overflow"
  | sub => "attempt to subtract with overflow"
  | mul => "attempt to multiply with overflow"

namespace Word

/-- The sum of two unsigned words. -/
def add (a b : Nat) : Except Overflow Nat :=
  if a + b < Config.wordSize then .ok (a + b) else .error .add

/-- The product of two unsigned words. -/
def mul (a b : Nat) : Except Overflow Nat :=
  if a * b < Config.wordSize then .ok (a * b) else .error .mul

/-- The difference of two signed words. -/
def sub (a b : Int) : Except Overflow Int :=
  if Int.bmod (a - b) Config.wordSize = a - b then .ok (a - b) else .error .sub

end Word

/-- The number of columns of a text when `columns` measures a character and a tab takes `tab`. -/
def Text.textWidthWith? (columns : Char → Nat) (tab : Nat) (s : String) : Except Overflow Nat :=
  s.toList.foldlM (fun sum c => Word.add sum (if c = '\t' then tab else columns c)) 0

/-- The number of columns of a text when a tab takes `tab`. -/
def Text.textWidth? (tab : Nat) (s : String) : Except Overflow Nat :=
  textWidthWith? charWidth tab s

namespace Page

/-- Print a character that takes `width` columns. -/
def put? (p : Page) (c : Char) (width : Nat) : Except Overflow Page := do
  let column ← Word.add p.column width
  return { p with output := c :: p.output, column }

/-- Print a token. -/
def putToken? (p : Page) (t : String) : Except Overflow Page := do
  let column ← Word.add p.column t.utf8ByteSize
  return { p with output := t.toList.reverse ++ p.output, column }

/-- Begin a line that is indented by `levels`; blanks at the end of the old line go. -/
def newLine? (o : PrintOptions) (levels : Nat) (p : Page) : Except Overflow Page := do
  let line ← Word.add p.line 1
  let column ← Word.mul levels o.indentWidth
  return { p.newLine o levels with line, column }

/-- Print a character of a text. -/
def putTextChar? (columns : Char → Nat) (o : PrintOptions) (p : Page) (c : Char) :
    Except Overflow Page :=
  if c = '\n' then p.newLine? o 0
  else if c = '\r' then .ok p
  else if c = '\t' then p.put? c o.indentWidth
  else p.put? c (columns c)

/-- Print a text. -/
def putText? (columns : Char → Nat) (o : PrintOptions) (p : Page) (t : String) :
    Except Overflow Page :=
  t.toList.foldlM (putTextChar? columns o) p

end Page

/-- The documents of `stack`, printed flat, take no more than `remaining` columns and have no line
    break. -/
def fitsWithin? (columns : Char → Nat) (tab : Nat) (remaining : Int) :
    List Document → Except Overflow Bool
  | [] => .ok true
  | .token t :: stack => do
    let left ← Word.sub remaining (signedWord t.utf8ByteSize)
    if left < 0 then return false else fitsWithin? columns tab left stack
  | .text t :: stack =>
    if t.toList.contains '\n' then .ok false
    else do
      let width ← Text.textWidthWith? columns tab t
      let left ← Word.sub remaining (signedWord width)
      if left < 0 then return false else fitsWithin? columns tab left stack
  | .space :: stack => do
    let left ← Word.sub remaining 1
    if left < 0 then return false else fitsWithin? columns tab left stack
  | .lineBreak :: _ => .ok false
  | .concat ds :: stack =>
    if remaining < 0 then .ok false else fitsWithin? columns tab remaining (ds ++ stack)
  | .group d _ :: stack =>
    if remaining < 0 then .ok false else fitsWithin? columns tab remaining (d :: stack)
termination_by stack => Document.sizeAll stack
decreasing_by
  all_goals simp only [Document.sizeAll, Document.sizeAll_append, Document.size]; omega

/-- The document can be laid out flat. -/
def fits? (columns : Char → Nat) (o : PrintOptions) (d : Document) : Except Overflow Bool :=
  fitsWithin? columns o.indentWidth (signedWord o.lineWidth) [d]

/-- A group around `d` is laid out flat when `mode` is that of the group around it. Inside a flat
    group nothing is measured. -/
def laysFlat? (columns : Char → Nat) (o : PrintOptions) (mode : Mode) (d : Document) :
    Except Overflow Bool :=
  if mode = .flat then .ok true else fits? columns o d

mutual

/-- Print a document at an indentation of `indent` levels. -/
def Document.printOn? (columns : Char → Nat) (o : PrintOptions) (indent : Nat) (mode : Mode) :
    Document → Page → Except Overflow Page
  | .token t, p => p.putToken? t
  | .text t, p => p.putText? columns o t
  | .space, p => if mode = .broken then p.newLine? o indent else p.put? ' ' 1
  | .lineBreak, p => p.newLine? o indent
  | .concat ds, p => printAllOn? columns o indent mode ds p
  | .group d levels, p => do
    let indent ← Word.add indent levels.toNat
    let flat ← laysFlat? columns o mode d
    printOn? columns o indent (if flat then .flat else .broken) d p

/-- Print documents one after another. -/
def Document.printAllOn? (columns : Char → Nat) (o : PrintOptions) (indent : Nat) (mode : Mode) :
    List Document → Page → Except Overflow Page
  | [], p => .ok p
  | d :: ds, p => do
    let p ← printOn? columns o indent mode d p
    printAllOn? columns o indent mode ds p

end

/-- The text of a document when `columns` measures a character. -/
def Document.printWith? (columns : Char → Nat) (o : PrintOptions) (d : Document) :
    Except Overflow String := do
  let p ← d.printOn? columns o 0 .free Page.blank
  return p.text

/-- The text of a document. -/
def Document.print? (o : PrintOptions) (d : Document) : Except Overflow String :=
  d.printWith? Text.charWidth o

/-- The text of a tree when `columns` measures a character. -/
def formatWith? (columns : Char → Nat) (o : PrintOptions) (tree : Node) :
    Except Overflow String :=
  (tree.layout none).printWith? columns o

/-- The text of a tree. -/
def format? (o : PrintOptions) (tree : Node) : Except Overflow String :=
  formatWith? Text.charWidth o tree

/-- The text is exactly how the tree is formatted. -/
def isFormatted? (o : PrintOptions) (tree : Node) (source : String) : Except Overflow Bool := do
  let text ← format? o tree
  return text == source

end TreeLint
