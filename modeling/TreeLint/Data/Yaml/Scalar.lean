import TreeLint.Data.Value
import TreeLint.Data.Yaml.Cursor

namespace TreeLint.Yaml

/-!
# YAML scalars

A scalar is a word without quotes, a text in quotes, or a block of lines. Where a scalar goes on over
a line end, `foldBreaks` says what stands for it: a single line feed becomes a space, and of more
line ends the first one is dropped if it is a line feed.

* `plain?`, `quoted?` and `block?` read the three sorts of scalars.
* The text that is being read is kept with its last character first.

The readers recurse on a bound, which is the number of characters that are left, or more.
-/

/-- How a scalar is written. -/
inductive ScalarStyle where
  | plain
  | quoted
  /-- Lines that are kept as they are. -/
  | literal
  /-- Lines that are joined. -/
  | folded
  deriving DecidableEq

/-! ### Folding -/

/-- What stands for successive line ends. -/
def foldBreaks : List Char → List Char
  | ['\n'] => [' ']
  | '\n' :: more => more
  | breaks => breaks

/-- What stands for a gap between words. Blanks beside line ends are dropped. -/
def foldGap (gap : List Char) : List Char :=
  if gap.any isBreak then foldBreaks (gap.filter isBreak) else gap

/-- A tab stands left of the margin on a line that begins in the gap. `column?` is the column on that
    line. -/
def tabBefore (margin : Nat) (column? : Option Nat) : List Char → Bool
  | [] => false
  | c :: cs =>
    if isBreak c then tabBefore margin (some 0) cs
    else (c = '\t' && column?.any (· < margin)) || tabBefore margin (column?.map (· + 1)) cs

/-! ### Plain scalars -/

/-- Characters that separate the parts of flow values. -/
def isFlowMark (c : Char) : Bool := ",[]\x7b\x7d".toList.contains c

/-- The characters of a plain scalar up to a gap or its end, put before `word`. A colon before a gap
    ends it, and in a flow value a mark of flow values. There a colon before such a mark, or before a
    question mark, is refused. -/
def plainWord? (flow : Bool) (word : List Char) : List Char → Option (List Char)
  | [] => some word
  | c :: rest =>
    if isGap c then some word
    else if flow && c = ':' && rest.head?.any fun d => isFlowMark d || d = '?' then none
    else if (c = ':' && atGap rest) || (flow && isFlowMark c) then some word
    else plainWord? flow (c :: word) rest

/-- What was read of a plain scalar. -/
structure PlainText where
  /-- The text, last character first. -/
  text : List Char
  /-- A line end was read after it. -/
  broken : Bool
  cursor : Cursor

/-- Read on in a plain scalar, `joint` being what joins the next word to the text. It ends before a
    comment, before a mark of a document, and outside of flow values at a line left of the margin. -/
def plainLoop? (flow : Bool) (margin : Nat) : (bound : Nat) → (joint : List Char) → PlainText →
    Option PlainText
  | 0, _, read => some read
  | bound + 1, joint, read => do
    let c := read.cursor
    if c.atDocumentMark || c.sees '#' then return read
    let word ← plainWord? flow [] c.rest
    if word.isEmpty then return read
    let text := word ++ (joint.reverse ++ read.text)
    let (gap, next) := (c.skip word.length).span isGap
    if tabBefore margin none gap then none
    let read := ⟨text, gap.any isBreak, next⟩
    if gap.isEmpty || (!flow && next.column < margin) then return read
    plainLoop? flow margin bound (foldGap gap) read

/-- Read the plain scalar that begins here. -/
def plain? (flow : Bool) (margin bound : Nat) (c : Cursor) : Option PlainText :=
  plainLoop? flow margin bound [] ⟨[], false, c⟩

/-! ### Quoted scalars -/

/-- The character that a letter after a backslash stands for. -/
def escapeLetter? (c : Char) : Option Char :=
  match c with
  | '0' => some '\x00'
  | 'a' => some '\x07'
  | 'b' => some '\x08'
  | 't' => some '\t'
  | '\t' => some '\t'
  | 'n' => some '\n'
  | 'v' => some '\x0b'
  | 'f' => some '\x0c'
  | 'r' => some '\r'
  | 'e' => some '\x1b'
  | ' ' => some ' '
  | '"' => some '"'
  | '/' => some '/'
  | '\\' => some '\\'
  | 'N' => some (Char.ofNat 0x85)
  | '_' => some (Char.ofNat 0xA0)
  | 'L' => some (Char.ofNat 0x2028)
  | 'P' => some (Char.ofNat 0x2029)
  | _ => none

/-- The character with the code point that hexadecimal digits write. -/
def codePoint? (digits : List Char) : Option Char := do
  let n ← Value.digits? 16 digits
  if n.isValidChar then some (Char.ofNat n) else none

/-- The text of a scalar between double quotes up to a gap, the closing quote or an escaped line end,
    put before `text`, and the number of characters read. -/
def doubleRun? (text : List Char) (count : Nat) : List Char → Option (List Char × Nat)
  | [] => some (text, count)
  | '"' :: _ => some (text, count)
  | '\\' :: 'x' :: a :: b :: rest => do
    doubleRun? ((← codePoint? [a, b]) :: text) (count + 4) rest
  | '\\' :: 'u' :: a :: b :: c :: d :: rest => do
    doubleRun? ((← codePoint? [a, b, c, d]) :: text) (count + 6) rest
  | '\\' :: 'U' :: a :: b :: c :: d :: e :: f :: g :: h :: rest => do
    doubleRun? ((← codePoint? [a, b, c, d, e, f, g, h]) :: text) (count + 10) rest
  | '\\' :: e :: rest =>
    if isBreak e then some (text, count)
    else do doubleRun? ((← escapeLetter? e) :: text) (count + 2) rest
  | c :: rest =>
    if isGap c then some (text, count)
    else if c = '\\' then none
    else doubleRun? (c :: text) (count + 1) rest

/-- The text of a scalar between single quotes up to a gap or the closing quote, put before `text`,
    and the number of characters read. A quote inside is written twice. -/
def singleRun (text : List Char) (count : Nat) : List Char → List Char × Nat
  | [] => (text, count)
  | [c] => if isGap c || c = singleQuote then (text, count) else (c :: text, count + 1)
  | c :: d :: rest =>
    if isGap c then (text, count)
    else if c ≠ singleQuote then singleRun (c :: text) (count + 1) (d :: rest)
    else if d = singleQuote then singleRun (c :: text) (count + 2) rest
    else (text, count)

/-- Read on in a quoted scalar to its closing quote; the text, last character first, and the place
    after the quote. A mark of a document is refused inside. -/
def quotedLoop? (quote : Char) : (bound : Nat) → (text : List Char) → Cursor →
    Option (List Char × Cursor)
  | 0, _, _ => none
  | bound + 1, text, c => do
    if c.atDocumentMark || c.rest.isEmpty then none
    let (text, count) ←
      if quote = '"' then doubleRun? text 0 c.rest else some (singleRun text 0 c.rest)
    let c := c.skip count
    if c.sees quote then return (text, c.skip 1)
    if c.sees '\\' then
      -- The escaped line end itself stands for nothing.
      let (gap, c) := (c.skip 2).span isGap
      quotedLoop? quote bound ((gap.filter isBreak).reverse ++ text) c
    else
      let (gap, c) := c.span isGap
      quotedLoop? quote bound ((foldGap gap).reverse ++ text) c

/-- Read the quoted scalar that begins here. -/
def quoted? (bound : Nat) (c : Cursor) : Option (List Char × Cursor) := do
  quotedLoop? (← c.peek?) bound [] (c.skip 1)

/-! ### Block scalars -/

/-- What becomes of the line ends after a block. -/
inductive Chomping where
  /-- All are dropped. -/
  | strip
  /-- The first one is kept. -/
  | clip
  /-- All are kept. -/
  | keep
  deriving DecidableEq

/-- The sign that says what becomes of the line ends after a block. -/
def chomping? : Option Char → Option Chomping
  | some '+' => some .keep
  | some '-' => some .strip
  | _ => none

/-- The number by which a block is indented. -/
def increment? (ch : Option Char) : Option Nat := do
  let ch ← ch
  if '1' ≤ ch && ch ≤ '9' then some (ch.toNat - '0'.toNat) else none

/-- Read what follows the mark of a block: a sign and a number, each of which may be missing. -/
def blockHeader (c : Cursor) : Chomping × Option Nat × Cursor :=
  match chomping? c.peek?, increment? c.peek? with
  | some chomping, _ =>
    match increment? (c.skip 1).peek? with
    | some n => (chomping, some n, c.skip 2)
    | none => (chomping, none, c.skip 1)
  | none, some n =>
    match chomping? (c.skip 1).peek? with
    | some chomping => (chomping, some n, c.skip 2)
    | none => (.clip, some n, c.skip 1)
  | none, none => (.clip, none, c)

/-- Lines of a block that have no content. -/
structure BlankLines where
  /-- The ends of the lines, last one first. -/
  breaks : List Char
  /-- The greatest column at which the content of a line could begin. -/
  widest : Nat
  cursor : Cursor

/-- Read the blank lines of a block and the indentation of the line after them. No tab may stand in
    the indentation. -/
def blankLines? (indent? : Option Nat) : (bound : Nat) → BlankLines → Option BlankLines
  | 0, _ => none
  | bound + 1, read => do
    let spaces := (read.cursor.rest.takeWhile (· = ' ')).length
    let column := read.cursor.column
    let c := read.cursor.skip (indent?.elim spaces fun n => min spaces (n - column))
    if c.sees '\t' && indent?.all (c.column < ·) then none
    let widest := max read.widest c.column
    match c.peek? with
    | some ch =>
      if isBreak ch then blankLines? indent? bound ⟨ch :: read.breaks, widest, c.skip 1⟩
      else some ⟨read.breaks, widest, c⟩
    | none => some ⟨read.breaks, widest, c⟩

/-- What was read of a block. -/
structure BlockText where
  /-- The text, last character first. -/
  text : List Char
  /-- The end of the last line with content. -/
  ending : List Char
  /-- The ends of the blank lines after it, last one first. -/
  breaks : List Char
  /-- The last line began with a blank. -/
  indented : Bool
  cursor : Cursor

/-- Read the lines of a block. A folded block joins two lines by a space, or by the blank lines
    between them, unless one of the two begins with a blank. -/
def blockLines? (style : ScalarStyle) (indent : Nat) : (bound : Nat) → BlockText → Option BlockText
  | 0, read => some read
  | bound + 1, read => do
    let c := read.cursor
    if c.column ≠ indent || c.rest.isEmpty then return read
    let indented := c.peek?.any isBlank
    let ending :=
      if style = .folded && read.ending = ['\n'] && !read.indented && !indented then
        if read.breaks.isEmpty then [' '] else []
      else read.ending
    let (line, c) := c.span (!isBreak ·)
    let text := line.reverse ++ (read.breaks ++ (ending ++ read.text))
    let blank ← blankLines? (some indent) bound ⟨[], 0, c.skip 1⟩
    blockLines? style indent bound ⟨text, c.peek?.toList, blank.breaks, indented, blank.cursor⟩

/-- Read the block that begins here. `margin` is the least column that its lines may have. -/
def block? (style : ScalarStyle) (margin bound : Nat) (c : Cursor) :
    Option (List Char × Cursor) := do
  let (chomping, increment?, c) := blockHeader (c.skip 1)
  let c ← c.finishLine?
  let blank ← blankLines? (increment?.map (margin - 1 + ·)) bound ⟨[], 0, c⟩
  let indent := increment?.elim (max 1 (max margin blank.widest)) (margin - 1 + ·)
  let read ← blockLines? style indent bound ⟨[], [], blank.breaks, false, blank.cursor⟩
  let text := if chomping = .strip then read.text else read.ending ++ read.text
  return (if chomping = .keep then read.breaks ++ text else text, read.cursor)

end TreeLint.Yaml
