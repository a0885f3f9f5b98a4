import TreeLint.Data.Yaml.Property
import TreeLint.Data.Yaml.Scalar

namespace TreeLint.Yaml

/-!
# YAML tokens

The columns at which lines begin say where block collections begin and end, and only the colon after
it says that a node is a key. So the tokens are read with a state:

* `Scan.indents` holds the columns of the block collections that are open;
* `Scan.key?` remembers where a key may have begun, so that the colon can put its token there.

`tokens?` reads all tokens of a text.
-/

/-- The parts of a text. -/
inductive Token where
  | directive (d : Directive)
  | documentStart
  | documentEnd
  /-- A block sequence begins. -/
  | blockSequence
  /-- A block mapping begins. -/
  | blockMapping
  /-- A block collection ends. -/
  | blockEnd
  | flowSequence
  | flowSequenceEnd
  | flowMapping
  | flowMappingEnd
  /-- The dash before an item of a block sequence. -/
  | dash
  | comma
  | key
  | value
  /-- An alias. -/
  | reference (name : String)
  | anchor (name : String)
  | tag (t : Tag)
  | scalar (style : ScalarStyle) (text : String)
  deriving DecidableEq

/-- A place at which a key may have begun. -/
structure KeyPlace where
  /-- The number of tokens before it. -/
  index : Nat
  line : Nat
  column : Nat
  offset : Nat
  /-- Nothing but a key can stand here. -/
  required : Bool

/-- What was read of a text. -/
structure Scan where
  cursor : Cursor
  /-- The tokens, last one first. -/
  tokens : List Token := []
  /-- The number of tokens. -/
  count : Nat := 0
  /-- The columns of the open block collections, innermost one first. -/
  indents : List Nat := []
  /-- A key can begin here. -/
  keyAllowed : Bool := true
  /-- Where the latest key may have begun, in the innermost flow collection. -/
  key? : Option KeyPlace := none
  /-- The same for what is around each open flow collection, innermost one first. -/
  outerKeys : List (Option KeyPlace) := []

namespace Scan

/-- A flow collection is open. -/
def inFlow (s : Scan) : Bool := !s.outerKeys.isEmpty

/-- The least column of what belongs to the innermost block collection. -/
def margin (s : Scan) : Nat := s.indents.head?.elim 0 (· + 1)

/-- Add a token. -/
def emit (s : Scan) (t : Token) : Scan := { s with tokens := t :: s.tokens, count := s.count + 1 }

/-- Put a token before the tokens from the given number on. -/
def emitAt (s : Scan) (index : Nat) (t : Token) : Scan :=
  let later := s.count - index
  { s with tokens := s.tokens.take later ++ t :: s.tokens.drop later, count := s.count + 1 }

/-- Go past one character, which is a token of its own. -/
def mark (s : Scan) (t : Token) (keyAllowed : Bool) : Scan :=
  { s with cursor := s.cursor.skip 1, keyAllowed := keyAllowed }.emit t

/-! ### Block collections -/

/-- Begin a block collection at the given column, unless one is open there. Its token is put before
    the tokens from the given number on. -/
def openBlock (s : Scan) (column index : Nat) (t : Token) : Scan :=
  if s.inFlow || column < s.margin then s
  else { s with indents := column :: s.indents }.emitAt index t

/-- Begin a block collection here, unless one is open at this column. -/
def openBlockHere (s : Scan) (t : Token) : Scan := s.openBlock s.cursor.column s.count t

/-- End the innermost block collections whose columns have the property. -/
def closeBlocks (s : Scan) (closed : Nat → Bool) : Scan :=
  if s.inFlow then s
  else
    let n := (s.indents.takeWhile closed).length
    { s with
      tokens := List.replicate n .blockEnd ++ s.tokens
      count := s.count + n
      indents := s.indents.drop n }

/-! ### Keys -/

/-- Forget the place where a key may have begun. It is refused when there must be one. -/
def dropKey? (s : Scan) : Option Scan :=
  if s.key?.any (·.required) then none else some { s with key? := none }

/-- A key may begin here, if keys are allowed. -/
def keepKey? (s : Scan) : Option Scan :=
  if s.keyAllowed then do
    let s ← s.dropKey?
    let c := s.cursor
    let required := !s.inFlow && s.indents.head? = some c.column
    return { s with key? := some ⟨s.count, c.line, c.column, c.offset, required⟩ }
  else some s

/-- Forget the place of a key that began on another line or too many bytes before. -/
def dropStaleKey? (s : Scan) : Option Scan :=
  let c := s.cursor
  if s.key?.any fun k => k.line < c.line || k.offset + 1024 < c.offset then s.dropKey? else some s

/-! ### Tokens -/

/-- Go past blanks, comments and line ends. A tab may not stand where a key can begin; outside of
    flow collections a key can begin on each line. -/
def skipGap : (bound : Nat) → Scan → Scan
  | 0, s => s
  | bound + 1, s =>
    let c := s.cursor
    let c := if c.column = 0 && c.sees byteOrderMark then c.skip 1 else c
    let tabs := s.inFlow || !s.keyAllowed
    let c := c.skipWhile fun ch => ch = ' ' || (tabs && ch = '\t')
    let c := if c.sees '#' then c.skipWhile (!isBreak ·) else c
    if c.peek?.any isBreak then
      skipGap bound { s with cursor := c.skip 1, keyAllowed := s.keyAllowed || !s.inFlow }
    else { s with cursor := c }

/-- What comes before or after a document ends all block collections. -/
def leaveDocument? (s : Scan) : Option Scan := do
  let s ← (s.closeBlocks fun _ => true).dropKey?
  return { s with keyAllowed := false }

/-- Read a directive. -/
def directive? (s : Scan) : Option Scan := do
  let s ← s.leaveDocument?
  let (d, c) ← Directive.read? s.cursor
  return { s with cursor := c }.emit (.directive d)

/-- Read a mark of a document. -/
def documentMark? (s : Scan) (t : Token) : Option Scan := do
  let s ← s.leaveDocument?
  return { s with cursor := s.cursor.skip 3 }.emit t

/-- Read the bracket that begins a flow collection. -/
def openFlow? (s : Scan) (t : Token) : Option Scan := do
  let s ← s.keepKey?
  return { s with key? := none, outerKeys := s.key? :: s.outerKeys }.mark t true

/-- Read the bracket that ends a flow collection. -/
def closeFlow? (s : Scan) (t : Token) : Option Scan := do
  let s ← s.dropKey?
  let s := match s.outerKeys with
    | key? :: outerKeys => { s with key? := key?, outerKeys := outerKeys }
    | [] => s
  return s.mark t false

/-- Read the comma between parts of a flow collection. -/
def comma? (s : Scan) : Option Scan := do
  let s ← s.dropKey?
  return s.mark .comma true

/-- Read the dash before an item. -/
def dash? (s : Scan) : Option Scan := do
  if !s.inFlow && !s.keyAllowed then none
  let s ← (s.openBlockHere .blockSequence).dropKey?
  return s.mark .dash true

/-- Read the question mark before a key. -/
def markedKey? (s : Scan) : Option Scan := do
  if !s.inFlow && !s.keyAllowed then none
  let s ← (s.openBlockHere .blockMapping).dropKey?
  return s.mark .key (!s.inFlow)

/-- Read the colon before a value. What may have been a key is one. -/
def value? (s : Scan) : Option Scan :=
  match s.key? with
  | some k =>
    let s := (s.emitAt k.index .key).openBlock k.column k.index .blockMapping
    some ({ s with key? := none }.mark .value false)
  | none =>
    if !s.inFlow && !s.keyAllowed then none
    else some ((s.openBlockHere .blockMapping).mark .value (!s.inFlow))

/-- Read something with which a key may begin. -/
def content? (s : Scan) (read? : Cursor → Option (Token × Cursor)) : Option Scan := do
  let s ← s.keepKey?
  let (t, c) ← read? s.cursor
  return { s with cursor := c, keyAllowed := false }.emit t

/-- Read a quoted scalar. -/
def quoted? (bound : Nat) (s : Scan) : Option Scan :=
  s.content? fun c => do
    let (text, c) ← Yaml.quoted? bound c
    return (.scalar .quoted (String.ofList text.reverse), c)

/-- Read a plain scalar. A key can begin after it if it ended with a line. -/
def plain? (bound : Nat) (s : Scan) : Option Scan := do
  let s ← s.keepKey?
  let read ← Yaml.plain? s.inFlow s.margin bound s.cursor
  return { s with cursor := read.cursor, keyAllowed := read.broken }.emit
    (.scalar .plain (String.ofList read.text.reverse))

/-- Read a block scalar. -/
def block? (bound : Nat) (s : Scan) (style : ScalarStyle) : Option Scan := do
  let s ← s.dropKey?
  let (text, c) ← Yaml.block? style s.margin bound s.cursor
  return { s with cursor := c, keyAllowed := true }.emit
    (.scalar style (String.ofList text.reverse))

/-- A plain scalar can begin with the given character. -/
def startsPlain (flow : Bool) (ch : Char) (after : List Char) : Bool :=
  if ch = '-' then !after.head?.any isBlank
  else if ch = '?' || ch = ':' then !flow && !atGap after
  else !isGap ch && ch ≠ singleQuote && !(",[]\x7b\x7d#&*!|>%@\x60\"".toList.contains ch)

/-- Read the token that begins with the given character. -/
def token? (bound : Nat) (s : Scan) (ch : Char) (after : List Char) : Option Scan :=
  let c := s.cursor
  if c.column = 0 && ch = '%' then s.directive?
  else if c.atMark '-' then s.documentMark? .documentStart
  else if c.atMark '.' then s.documentMark? .documentEnd
  else if ch = '[' then s.openFlow? .flowSequence
  else if ch = ']' then s.closeFlow? .flowSequenceEnd
  else if ch = '\x7b' then s.openFlow? .flowMapping
  else if ch = '\x7d' then s.closeFlow? .flowMappingEnd
  else if ch = ',' then s.comma?
  else if ch = '-' && atGap after then s.dash?
  else if ch = '?' && (s.inFlow || atGap after) then s.markedKey?
  else if ch = ':' && (s.inFlow || atGap after) then s.value?
  else if ch = '*' then s.content? fun c => (name? (c.skip 1)).map fun (n, c) => (.reference n, c)
  else if ch = '&' then s.content? fun c => (name? (c.skip 1)).map fun (n, c) => (.anchor n, c)
  else if ch = '!' then s.content? fun c => (Tag.read? s.inFlow c).map fun (t, c) => (.tag t, c)
  else if ch = '|' && !s.inFlow then s.block? bound .literal
  else if ch = '>' && !s.inFlow then s.block? bound .folded
  else if ch = singleQuote || ch = '"' then s.quoted? bound
  else if startsPlain s.inFlow ch after then s.plain? bound
  else none

/-- Read all further tokens. -/
def finish? : (bound : Nat) → Scan → Option (List Token)
  | 0, _ => none
  | bound + 1, s => do
    let s ← (s.skipGap (bound + 1)).dropStaleKey?
    let s := s.closeBlocks (s.cursor.column < ·)
    match s.cursor.rest with
    | [] => s.leaveDocument?.map (·.tokens.reverse)
    | ch :: after => finish? bound (← s.token? bound ch after)

end Scan

/-- The tokens of a text. Each of them takes up a character at least. -/
def tokens? (text : String) : Option (List Token) :=
  let cs := text.toList
  if cs.all isAllowed then Scan.finish? (cs.length + 1) { cursor := { rest := unifyBreaks cs } }
  else none

end TreeLint.Yaml
