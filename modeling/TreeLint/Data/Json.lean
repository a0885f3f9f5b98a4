import TreeLint.Data.Value
import TreeLint.Text.Quoted

namespace TreeLint.Json

/-!
# JSON

* `parse?` reads a JSON text. Numbers keep their digits and objects their order and repetitions. A
  string with half of a surrogate pair, and an object with such a key, is `Value.unreadable`.
* `pretty` writes a value with one item or member per line and two spaces per level.

Reading recurses on a bound for the number of values and separators that are still to come, which
the length of the text gives.
-/

/-- The characters that may stand between the parts of a JSON text. -/
def isSpace (c : Char) : Bool := c = ' ' || c = '\n' || c = '\r' || c = '\t'

/-- The text without the space at its start. -/
def skip (cs : List Char) : List Char := cs.dropWhile isSpace

/-! ### Numbers -/

/-- The digits at the start of a text, and the rest. -/
def takeDigits (cs : List Char) : List Char × List Char := (cs.takeWhile Char.isDigit, cs.dropWhile Char.isDigit)

/-- The part of a number before the point: `0`, or digits that begin with another one. -/
def integerPart? (cs : List Char) : Option (List Char × List Char) :=
  match takeDigits cs with
  | ([], _) => none
  | (['0'], rest) => some (['0'], rest)
  | ('0' :: _, _) => none
  | (digits, rest) => some (digits, rest)

/-- The point and the digits after it, if there is a point. -/
def fractionPart? : List Char → Option (List Char × List Char)
  | '.' :: cs =>
    match takeDigits cs with
    | ([], _) => none
    | (digits, rest) => some ('.' :: digits, rest)
  | cs => some ([], cs)

/-- The mark of an exponent, its sign and its digits, if there is a mark. -/
def exponentPart? (cs : List Char) : Option (List Char × List Char) :=
  match cs with
  | [] => some ([], [])
  | e :: rest =>
    if e = 'e' || e = 'E' then
      let (sign, digits) := match rest with
        | '+' :: r => (['+'], r)
        | '-' :: r => (['-'], r)
        | r => ([], r)
      match takeDigits digits with
      | ([], _) => none
      | (digits, rest) => some (e :: sign ++ digits, rest)
    else some ([], cs)

/-- A number at the start of a text, and the rest. -/
def number? (cs : List Char) : Option (Value × List Char) := do
  let (sign, cs) := match cs with
    | '-' :: r => (['-'], r)
    | r => ([], r)
  let (whole, cs) ← integerPart? cs
  let (fraction, cs) ← fractionPart? cs
  let (exponent, cs) ← exponentPart? cs
  some (.number (String.ofList (sign ++ whole ++ fraction ++ exponent)), cs)

/-! ### Strings -/

/-- One unit of a string: a character, or half of a surrogate pair. -/
inductive Unit16 where
  | char (c : Char)
  | high (n : Nat)
  | low (n : Nat)

/-- The unit with the given number. -/
def Unit16.ofNat (n : Nat) : Unit16 :=
  if 0xD800 ≤ n && n < 0xDC00 then .high n
  else if 0xDC00 ≤ n && n < 0xE000 then .low n
  else .char (Char.ofNat n)

/-- The character of a letter after a backslash. -/
def escapeLetter? (c : Char) : Option Char :=
  if c = '"' then some '"'
  else if c = '\\' then some '\\'
  else if c = '/' then some '/'
  else if c = 'b' then some '\x08'
  else if c = 'f' then some '\x0c'
  else if c = 'n' then some '\n'
  else if c = 'r' then some '\r'
  else if c = 't' then some '\t'
  else none

/-- The units up to the closing quote, and the rest of the text. -/
def stringUnits? : List Char → Option (List Unit16 × List Char)
  | [] => none
  | '"' :: cs => some ([], cs)
  | '\\' :: 'u' :: a :: b :: c :: d :: cs => do
    let n ← Value.digits? 16 [a, b, c, d]
    let (units, rest) ← stringUnits? cs
    some (Unit16.ofNat n :: units, rest)
  | '\\' :: e :: cs => do
    let c ← escapeLetter? e
    let (units, rest) ← stringUnits? cs
    some (.char c :: units, rest)
  | c :: cs =>
    if c.toNat < 0x20 || c = '\\' then none
    else do
      let (units, rest) ← stringUnits? cs
      some (.char c :: units, rest)

/-- The characters of the units; halves of surrogate pairs must come in pairs. -/
def joinUnits? : List Unit16 → Option (List Char)
  | [] => some []
  | .char c :: units => (joinUnits? units).map (c :: ·)
  | .high h :: .low l :: units =>
    (joinUnits? units).map (Char.ofNat (0x10000 + (h - 0xD800) * 0x400 + (l - 0xDC00)) :: ·)
  | _ => none

/-- The text of the units. -/
def unitsText? (units : List Unit16) : Option String := (joinUnits? units).map String.ofList

/-! ### Values -/

/-- The object with the given members. All keys must be texts for it to be a table. -/
def object (members : List (Option String × Value)) : Value :=
  let fields? := members.mapM fun (m : Option String × Value) => m.1.map fun key => (key, m.2)
  (fields?.map Value.table).getD .unreadable

mutual

/-- A value at the start of a text, and the rest. -/
def value? : (bound : Nat) → List Char → Option (Value × List Char)
  | 0, _ => none
  | bound + 1, cs =>
    match skip cs with
    | 'n' :: 'u' :: 'l' :: 'l' :: rest => some (.null, rest)
    | 't' :: 'r' :: 'u' :: 'e' :: rest => some (.bool true, rest)
    | 'f' :: 'a' :: 'l' :: 's' :: 'e' :: rest => some (.bool false, rest)
    | '"' :: rest => do
      let (units, rest) ← stringUnits? rest
      some (((unitsText? units).map Value.text).getD .unreadable, rest)
    | '[' :: rest =>
      match skip rest with
      | ']' :: rest => some (.list [], rest)
      | rest => (items? bound rest).map fun (items, rest) => (.list items, rest)
    | '\x7b' :: rest =>
      match skip rest with
      | '\x7d' :: rest => some (.table [], rest)
      | rest => (members? bound rest).map fun (members, rest) => (object members, rest)
    | cs => number? cs

/-- The items of an array up to its end; there is at least one. -/
def items? : (bound : Nat) → List Char → Option (List Value × List Char)
  | 0, _ => none
  | bound + 1, cs => do
    let (v, cs) ← value? bound cs
    match skip cs with
    | ',' :: rest =>
      let (vs, rest) ← items? bound rest
      some (v :: vs, rest)
    | ']' :: rest => some ([v], rest)
    | _ => none

/-- The members of an object up to its end; there is at least one. -/
def members? : (bound : Nat) → List Char → Option (List (Option String × Value) × List Char)
  | 0, _ => none
  | bound + 1, cs =>
    match skip cs with
    | '"' :: rest => do
      let (units, rest) ← stringUnits? rest
      let key := unitsText? units
      match skip rest with
      | ':' :: rest =>
        let (v, rest) ← value? bound rest
        match skip rest with
        | ',' :: rest =>
          let (members, rest) ← members? bound rest
          some ((key, v) :: members, rest)
        | '\x7d' :: rest => some ([(key, v)], rest)
        | _ => none
      | _ => none
    | _ => none

end

/-- Read a JSON text. -/
def parse? (s : String) : Option Value :=
  match value? (2 * s.length + 2) s.toList with
  | some (v, rest) => if (skip rest).isEmpty then some v else none
  | none => none

/-! ### Writing -/

/-- How a character is written in a string. -/
def escapedChar (c : Char) : String :=
  if c = '"' then "\\\""
  else if c = '\\' then "\\\\"
  else if c = '\x08' then "\\b"
  else if c = '\x0c' then "\\f"
  else if c = '\n' then "\\n"
  else if c = '\r' then "\\r"
  else if c = '\t' then "\\t"
  else if c.toNat < 0x20 then
    "\\u00" ++ (if c.toNat < 0x10 then "0" else "") ++ Text.hexDigits c.toNat
  else String.singleton c

/-- A string between quotes. -/
def string (s : String) : String := "\"" ++ String.join (s.toList.map escapedChar) ++ "\""

/-- A new line at the given level. -/
def newLine (level : Nat) : String := "\n" ++ String.ofList (List.replicate (2 * level) ' ')

mutual

/-- A value at the given level. -/
def prettyAt (level : Nat) : Value → String
  | .null => "null"
  | .bool b => if b then "true" else "false"
  | .number digits => digits
  | .text s => string s
  | .plain s _ => string s
  | .lines s _ => string s
  | .unreadable => string ""
  | .list items =>
    if items.isEmpty then "[]"
    else "[" ++ prettyItems (level + 1) items ++ newLine level ++ "]"
  | .table fields =>
    if fields.isEmpty then "\x7b\x7d"
    else "\x7b" ++ prettyFields (level + 1) fields ++ newLine level ++ "\x7d"

/-- Items, each on a line of its own, with commas between them. -/
def prettyItems (level : Nat) : List Value → String
  | [] => ""
  | v :: vs =>
    newLine level ++ prettyAt level v ++ (if vs.isEmpty then "" else ",") ++ prettyItems level vs

/-- Members, each on a line of its own, with commas between them. -/
def prettyFields (level : Nat) : List (String × Value) → String
  | [] => ""
  | (key, v) :: fields =>
    newLine level ++ string key ++ ": " ++ prettyAt level v ++
      (if fields.isEmpty then "" else ",") ++ prettyFields level fields

end

/-- Write a value over several lines. -/
def pretty (v : Value) : String := prettyAt 0 v

end TreeLint.Json
