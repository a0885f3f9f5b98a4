namespace TreeLint

/-!
# Values of data files

`Value` is what a data file holds, in whichever format it is written. A number keeps its digits; a
plain scalar is a word without quotes, which is a number, a truth value or a text according to what
is asked for.

The questions that a reader asks are `natural?`, `bool?`, `text?`, `list?` and `present?`.
-/

/-- The content of a data file. -/
inductive Value where
  | null
  | bool (b : Bool)
  /-- A number or a date as it is written. -/
  | number (digits : String)
  | text (s : String)
  /-- A word without quotes, with its tag. -/
  | plain (s : String) (tag : Option String)
  /-- Lines of text with a tag. -/
  | lines (s : String) (tag : String)
  /-- Something that is well formed and that no reader can make sense of. -/
  | unreadable
  | list (items : List Value)
  /-- Keys and values in order; a key may occur twice. -/
  | table (fields : List (String × Value))

namespace Value

/-- The number that digits of the given base write; there must be some. -/
def digits? (base : Nat) (cs : List Char) : Option Nat :=
  if cs.isEmpty then none
  else cs.foldl
    (fun acc c => do
      let n ← acc
      let d ←
        if '0' ≤ c && c ≤ '9' then some (c.toNat - '0'.toNat)
        else if 'a' ≤ c && c ≤ 'f' then some (c.toNat - 'a'.toNat + 10)
        else if 'A' ≤ c && c ≤ 'F' then some (c.toNat - 'A'.toNat + 10)
        else none
      if d < base then some (n * base + d) else none)
    (some 0)

/-- The number that a plain scalar stands for: decimal without leading zeros, or with `0x`, `0o` or
    `0b` in front. A plus sign may come first. -/
def plainNatural? (s : String) : Option Nat :=
  let cs := match s.toList with
    | '+' :: rest => rest
    | cs => cs
  match cs with
  | '0' :: 'x' :: rest => digits? 16 rest
  | '0' :: 'o' :: rest => digits? 8 rest
  | '0' :: 'b' :: rest => digits? 2 rest
  | ['0'] => some 0
  | '0' :: _ => none
  | cs => digits? 10 cs

/-- The truth value that a plain scalar stands for. -/
def plainBool? (s : String) : Option Bool :=
  if ["true", "True", "TRUE"].contains s then some true
  else if ["false", "False", "FALSE"].contains s then some false
  else none

/-- Words that stand for nothing. -/
def isNullWord (s : String) : Bool := ["~", "null", "Null", "NULL"].contains s

/-- The standard tag of the given name. -/
def standardTag (name : String) : String := "tag:yaml.org,2002:" ++ name

/-- The natural number that the value is. -/
def natural? : Value → Option Nat
  | number digits => digits? 10 digits.toList
  | plain s _ => plainNatural? s
  | lines s tag => if tag = standardTag "int" then plainNatural? s else none
  | _ => none

/-- The truth value that the value is. -/
def bool? : Value → Option Bool
  | bool b => some b
  | plain s _ => plainBool? s
  | lines s tag => if tag = standardTag "bool" then plainBool? s else none
  | _ => none

/-- The text that the value is. -/
def text? : Value → Option String
  | text s => some s
  | plain s _ => some s
  | lines s _ => some s
  | _ => none

/-- The items of a list. A plain scalar without characters is a list without items. -/
def list? : Value → Option (List Value)
  | list items => some items
  | plain s _ => if s = "" then some [] else none
  | _ => none

/-- The value, or nothing if it stands for nothing. A word with the tag of nothing must stand for
    it; with any other tag no word does. -/
def present? : Value → Option (Option Value)
  | null => some none
  | plain s none => some (if s = "" || isNullWord s then none else some (plain s none))
  | plain s (some tag) =>
    if tag ≠ standardTag "null" then some (some (plain s (some tag)))
    else if isNullWord s then some none
    else none
  | v => some (some v)

/-- The values of a key, in order. -/
def valuesOf (key : String) (fields : List (String × Value)) : List Value :=
  (fields.filter (·.1 == key)).map (·.2)

end Value

end TreeLint
