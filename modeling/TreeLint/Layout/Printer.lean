import TreeLint.Layout.Document
import TreeLint.Text.Width

namespace TreeLint

/-!
# Printing documents

Each group is laid out by itself.

* A group is flat when its flat text is no wider than the line width and has no line break
  (`fits`); all inside it is then flat. What stands on the line before the group does not count.
* Otherwise the group is broken: its own spaces become line breaks, and the groups inside it are
  laid out by themselves.
* A line break is indented by the levels of all groups around it. No blank is left before a line
  break.
-/

/-- The settings of the printer. -/
structure PrintOptions where
  lineWidth : Nat := 80
  /-- Spaces per level of indentation; also the width of a tab. -/
  indentWidth : Nat := 2
  useTabs : Bool := false
  deriving DecidableEq

/-- How the innermost group around a document is laid out. -/
inductive Mode where
  /-- There is no group. -/
  | free
  | flat
  | broken
  deriving DecidableEq

/-- What has been printed. -/
structure Page where
  /-- The characters, last one first. -/
  output : List Char
  /-- The number of the current line, from 1. -/
  line : Nat
  column : Nat

namespace Page

/-- Nothing has been printed. -/
def blank : Page := ⟨[], 1, 0⟩

/-- Print a character that takes `width` columns. -/
def put (p : Page) (c : Char) (width : Nat) : Page :=
  { p with output := c :: p.output, column := p.column + width }

/-- Print a token. -/
def putToken (p : Page) (t : String) : Page :=
  { p with output := t.toList.reverse ++ p.output, column := p.column + t.utf8ByteSize }

/-- The characters of an indentation by `levels`. -/
def indentation (o : PrintOptions) (levels : Nat) : List Char :=
  if o.useTabs then List.replicate levels '\t' else List.replicate (levels * o.indentWidth) ' '

/-- Begin a line that is indented by `levels`; blanks at the end of the old line go. -/
def newLine (o : PrintOptions) (levels : Nat) (p : Page) : Page where
  output := indentation o levels ++ '\n' :: p.output.dropWhile fun c => c = ' ' || c = '\t'
  line := p.line + 1
  column := levels * o.indentWidth

/-- Print a character of a text. Line breaks of a text are not indented, carriage returns go. -/
def putTextChar (columns : Char → Nat) (o : PrintOptions) (p : Page) (c : Char) : Page :=
  if c = '\n' then p.newLine o 0
  else if c = '\r' then p
  else if c = '\t' then p.put c o.indentWidth
  else p.put c (columns c)

/-- Print a text. -/
def putText (columns : Char → Nat) (o : PrintOptions) (p : Page) (t : String) : Page :=
  t.toList.foldl (putTextChar columns o) p

/-- The text that has been printed. -/
def text (p : Page) : String := String.ofList p.output.reverse

end Page

/-- The number that a machine word stands for when it is read as signed: `2 ^ 63` and above are
    negative. -/
def signedWord (n : Nat) : Int := Int.bmod n (Nat.pow 2 64)

/-- The documents of `stack`, printed flat, take no more than `remaining` columns and have no line
    break. -/
def fitsWithin (columns : Char → Nat) (tab : Nat) (remaining : Int) : List Document → Bool
  | [] => true
  | .token t :: stack =>
    let left := remaining - signedWord t.utf8ByteSize
    if left < 0 then false else fitsWithin columns tab left stack
  | .text t :: stack =>
    if t.toList.contains '\n' then false
    else
      let left := remaining - signedWord (Text.textWidthWith columns tab t)
      if left < 0 then false else fitsWithin columns tab left stack
  | .space :: stack =>
    let left := remaining - 1
    if left < 0 then false else fitsWithin columns tab left stack
  | .lineBreak :: _ => false
  | .concat ds :: stack =>
    if remaining < 0 then false else fitsWithin columns tab remaining (ds ++ stack)
  | .group d _ :: stack =>
    if remaining < 0 then false else fitsWithin columns tab remaining (d :: stack)
termination_by stack => Document.sizeAll stack
decreasing_by
  all_goals simp only [Document.sizeAll, Document.sizeAll_append, Document.size]; omega

/-- The document can be laid out flat. -/
def fits (columns : Char → Nat) (o : PrintOptions) (d : Document) : Bool :=
  fitsWithin columns o.indentWidth (signedWord o.lineWidth) [d]

mutual

/-- Print a document at an indentation of `indent` levels. -/
def Document.printOn (columns : Char → Nat) (o : PrintOptions) (indent : Nat) (mode : Mode) :
    Document → Page → Page
  | .token t, p => p.putToken t
  | .text t, p => p.putText columns o t
  | .space, p => if mode = .broken then p.newLine o indent else p.put ' ' 1
  | .lineBreak, p => p.newLine o indent
  | .concat ds, p => printAllOn columns o indent mode ds p
  | .group d levels, p =>
    let mode := if mode = .flat || fits columns o d then Mode.flat else Mode.broken
    printOn columns o (indent + levels.toNat) mode d p

/-- Print documents one after another. -/
def Document.printAllOn (columns : Char → Nat) (o : PrintOptions) (indent : Nat) (mode : Mode) :
    List Document → Page → Page
  | [], p => p
  | d :: ds, p => printAllOn columns o indent mode ds (printOn columns o indent mode d p)

end

/-- The text of a document when `columns` measures a character. -/
def Document.printWith (columns : Char → Nat) (o : PrintOptions) (d : Document) : String :=
  (d.printOn columns o 0 .free Page.blank).text

/-- The text of a document. -/
def Document.print (o : PrintOptions) (d : Document) : String := d.printWith Text.charWidth o

end TreeLint
