import TreeLint.Data.Value
import TreeLint.Data.Yaml.Cursor

namespace TreeLint.Yaml

/-!
# Anchors, tags and directives

A node may have a name, by which an alias refers to it, and a tag that says of what kind it is. A tag
is written out between angle brackets, or as a handle and a suffix; the handles are declared by
directives before the document.

* `name?` reads the name of an anchor or an alias, `Tag.read?` a tag.
* `Directive.read?` reads a directive.

A tag is a sequence of bytes; a byte is written as the character with its number.
-/

/-! ### Names -/

/-- The name of an anchor or an alias, from after its mark on. -/
def name? (c : Cursor) : Option (String × Cursor) :=
  let (name, c) := c.span isWordChar
  let ended := c.peek?.all fun ch => isGap ch || "?:,]\x7d%@\x60".toList.contains ch
  if name.isEmpty || !ended then none else some (String.ofList name, c)

/-! ### Tags -/

/-- The number of bytes that follow the first byte of a character. -/
def bytesAfter? (byte : Nat) : Option Nat :=
  if byte < 0x80 then some 0
  else if byte / 0x20 = 0x06 then some 1
  else if byte / 0x10 = 0x0E then some 2
  else if byte / 0x08 = 0x1E then some 3
  else none

/-- Characters of the resource names that tags are. Between angle brackets there are some more. -/
def isResourceChar (bracketed : Bool) (c : Char) : Bool :=
  isWordChar c || c = singleQuote || ";/?:@&=+$.%!~*()".toList.contains c ||
    (bracketed && ",[]".toList.contains c)

/-- The resource name at the start of a text, put before `text`, and the number of characters read.
    A percent sign and two digits write a byte; `pending` bytes of a character are still to come. -/
def resource? (bracketed : Bool) (pending : Nat) (text : List Char) (count : Nat) :
    List Char → Option (List Char × Nat)
  | '%' :: a :: b :: rest => do
    let byte ← Value.digits? 16 [a, b]
    let pending ←
      if pending = 0 then bytesAfter? byte
      else if byte / 0x40 = 2 then some (pending - 1)
      else none
    resource? bracketed pending (Char.ofNat byte :: text) (count + 3) rest
  | [] => if pending = 0 then some (text, count) else none
  | c :: rest =>
    if pending ≠ 0 then none
    else if !isResourceChar bracketed c then some (text, count)
    else if c = '%' then none
    else resource? bracketed 0 (c :: text) (count + 1) rest

/-- The text up to the first zero byte. -/
def upToZero (cs : List Char) : String := String.ofList (cs.takeWhile (· ≠ '\x00'))

/-- A tag as it is written. A tag that is written out has the empty handle. -/
structure Tag where
  handle : String
  suffix : String
  deriving DecidableEq

/-- Read a resource name, which must not be empty. -/
def resourceAt? (bracketed : Bool) (c : Cursor) : Option (String × Cursor) := do
  let (text, count) ← resource? bracketed 0 [] 0 c.rest
  if count = 0 then none else some (upToZero text.reverse, c.skip count)

/-- Read a handle: an exclamation mark, and possibly a word and a second one. A word without the
    second mark is no part of a handle. -/
def handle? (c : Cursor) : Option (String × Cursor) :=
  if c.sees '!' then
    let (word, next) := (c.skip 1).span isWordChar
    if next.sees '!' then some (String.ofList ('!' :: word ++ ['!']), next.skip 1)
    else some ("!", c.skip 1)
  else none

namespace Tag

/-- Read the tag that begins here. A lone exclamation mark is a tag that is written out. -/
def read? (flow : Bool) (c : Cursor) : Option (Tag × Cursor) := do
  let (tag, c) ←
    if (c.skip 1).sees '<' then do
      let (suffix, c) ← resourceAt? true (c.skip 2)
      if c.sees '>' then some (⟨"", suffix⟩, c.skip 1) else none
    else do
      let (handle, c) ← handle? c
      if handle = "!" then do
        let (text, count) ← resource? false 0 [] 0 c.rest
        let suffix := upToZero text.reverse
        some (if suffix = "" then ⟨"", "!"⟩ else ⟨"!", suffix⟩, c.skip count)
      else do
        let (suffix, c) ← resourceAt? false c
        some (⟨handle, suffix⟩, c)
  if atGap c.rest || (flow && c.sees ',') then some (tag, c) else none

/-- What a handle stands for, if no directive says otherwise. -/
def standardHandles : List (String × String) := [("!", "!"), ("!!", "tag:yaml.org,2002:")]

/-- The tag written out, given what the handles stand for. -/
def resolve? (handles : List (String × String)) (tag : Tag) : Option String :=
  if tag.handle = "" then some tag.suffix
  else (handles.lookup tag.handle).map (· ++ tag.suffix)

end Tag

/-! ### Directives -/

/-- A line before a document that says how to read it. -/
inductive Directive where
  /-- The version of the format. -/
  | version (major minor : Nat)
  /-- A handle and what it stands for. -/
  | handle (name meaning : String)
  deriving DecidableEq

namespace Directive

/-- A number of a version. -/
def number? (c : Cursor) : Option (Nat × Cursor) := do
  let (digits, c) := c.span Char.isDigit
  if digits.length < 10 then return (← Value.digits? 10 digits, c) else none

/-- Read the directive that begins here, to the end of its line. -/
def read? (c : Cursor) : Option (Directive × Cursor) := do
  let (name, c) := (c.skip 1).span isWordChar
  if !atGap c.rest then none
  let c := c.skipWhile isBlank
  let (directive, c) ← match String.ofList name with
    | "YAML" => do
      let (major, c) ← number? c
      if !c.sees '.' then none
      let (minor, c) ← number? (c.skip 1)
      some (version major minor, c)
    | "TAG" => do
      let (name, c) ← handle? c
      if !c.peek?.any isBlank then none
      let (meaning, c) ← resourceAt? true (c.skipWhile isBlank)
      if !atGap c.rest then none
      some (handle name meaning, c)
    | _ => none
  return (directive, ← c.finishLine?)

end Directive

end TreeLint.Yaml
