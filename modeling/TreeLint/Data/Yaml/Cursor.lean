namespace TreeLint.Yaml

/-!
# Places in a YAML text

* `isAllowed` says which characters may stand in a text at all.
* `unifyBreaks` writes all line ends that are read alike in one way.
* `Cursor` is a place in a text: what is left of it, the line and the column.
-/

/-! ### Characters -/

/-- Characters that may stand in a text. -/
def isAllowed (c : Char) : Bool :=
  let n := c.toNat
  n == 0x09 || n == 0x0A || n == 0x0D || (0x20 ≤ n && n ≤ 0x7E) || n == 0x85 ||
    (0xA0 ≤ n && n ≤ 0xFFFD) || 0x10000 ≤ n

/-- The next-line character. -/
def nextLine : Char := Char.ofNat 0x85

/-- Carriage returns, with or without a line feed, and next-line characters become line feeds. -/
def unifyBreaks : List Char → List Char
  | [] => []
  | '\r' :: '\n' :: cs => '\n' :: unifyBreaks cs
  | c :: cs => (if c = '\r' || c = nextLine then '\n' else c) :: unifyBreaks cs

/-- Characters that end a line: line feed, line separator and paragraph separator. -/
def isBreak (c : Char) : Bool := c = '\n' || c.toNat = 0x2028 || c.toNat = 0x2029

/-- Spaces and tabs. -/
def isBlank (c : Char) : Bool := c = ' ' || c = '\t'

/-- Blanks and line ends. -/
def isGap (c : Char) : Bool := isBlank c || isBreak c

/-- The next character is a gap, or there is none. -/
def atGap (cs : List Char) : Bool := cs.head?.all isGap

/-- Letters, digits, the underscore and the hyphen. -/
def isWordChar (c : Char) : Bool := c.isAlphanum || c = '_' || c = '-'

/-- The single quote. -/
def singleQuote : Char := Char.ofNat 39

/-- The byte order mark. -/
def byteOrderMark : Char := Char.ofNat 0xFEFF

/-! ### Cursors -/

/-- A place in a text. -/
structure Cursor where
  /-- What is left of the text. -/
  rest : List Char
  line : Nat := 0
  /-- The number of characters before the place on its line. -/
  column : Nat := 0
  /-- The number of bytes before the place. -/
  offset : Nat := 0

namespace Cursor

/-- The next character. -/
def peek? (c : Cursor) : Option Char := c.rest.head?

/-- The next character is the given one. -/
def sees (c : Cursor) (ch : Char) : Bool := c.rest.head? = some ch

/-- Go past the given number of characters. -/
def skip (c : Cursor) : Nat → Cursor
  | 0 => c
  | n + 1 =>
    match c.rest with
    | [] => c
    | ch :: rest =>
      if isBreak ch then skip ⟨rest, c.line + 1, 0, c.offset + ch.utf8Size⟩ n
      else skip ⟨rest, c.line, c.column + 1, c.offset + ch.utf8Size⟩ n

/-- The characters up to the first one without the property, and the place after them. -/
def span (p : Char → Bool) (c : Cursor) : List Char × Cursor :=
  let run := c.rest.takeWhile p
  (run, c.skip run.length)

/-- Go past all characters with the property. -/
def skipWhile (p : Char → Bool) (c : Cursor) : Cursor := (c.span p).2

/-- Go past blanks and a comment after them. -/
def skipRemark (c : Cursor) : Cursor :=
  let c := c.skipWhile isBlank
  if c.sees '#' then c.skipWhile (!isBreak ·) else c

/-- Go past blanks and a comment to the end of the line, and past that; nothing else may come. -/
def finishLine? (c : Cursor) : Option Cursor :=
  let c := c.skipRemark
  if c.peek?.all isBreak then some (c.skip 1) else none

/-- A mark of three equal characters stands here at the start of a line. -/
def atMark (ch : Char) (c : Cursor) : Bool :=
  c.column = 0 && [ch, ch, ch].isPrefixOf c.rest && atGap (c.rest.drop 3)

/-- A mark that begins or ends a document stands here. -/
def atDocumentMark (c : Cursor) : Bool := c.atMark '-' || c.atMark '.'

end Cursor

end TreeLint.Yaml
