import TreeLint.Data.Value

namespace TreeLint.Toml

/-!
# TOML

`parse?` reads a TOML document into a `Value.table`.

* `Entry` is what a key stands for while a document is being read. It remembers how a table came
  about, because that decides whether a later line may add to it.
* `assign?`, `openTable?` and `openItem?` are what the three kinds of lines do to a table.
* `value?` reads a value, `document?` the lines of a document.

A key is never given twice: each of the three refuses what is already there.
-/

/-! ### Tables while a document is read -/

/-- How a table came about. -/
inductive Origin where
  /-- It has a header of its own. -/
  | header
  /-- It lies on the way to a table with a header. -/
  | implied
  /-- It lies on the way to a value under a dotted key. -/
  | dotted
  deriving DecidableEq

/-- What a key stands for. -/
inductive Entry where
  | value (v : Value)
  | table (origin : Origin) (fields : List (String × Entry))
  /-- The tables under one repeated header, the newest first. -/
  | tables (newest : List (String × Entry)) (older : List (List (String × Entry)))

abbrev Fields := List (String × Entry)

/-- Put an entry in the place of the one that the key has, or at the end. -/
def put (key : String) (e : Entry) : Fields → Fields
  | [] => [(key, e)]
  | (k, old) :: rest => if k = key then (k, e) :: rest else (k, old) :: put key e rest

/-- Change the table that a header names. Tables on the way there are made if they are missing, and
    of the tables under a repeated header the newest is meant. -/
def within? (change : Fields → Option Fields) : List String → Fields → Option Fields
  | [], fields => change fields
  | k :: ks, fields =>
    match fields.lookup k with
    | none => (within? change ks []).map fun sub => put k (.table .implied sub) fields
    | some (.table origin sub) =>
      (within? change ks sub).map fun sub => put k (.table origin sub) fields
    | some (.tables newest older) =>
      (within? change ks newest).map fun sub => put k (.tables sub older) fields
    | some (.value _) => none

/-- Give a dotted key a value. The way there may not lead through a table with a header of its own,
    and it must end in a table that dotted keys have made. -/
def assign? (v : Value) : List String → Fields → Option Fields
  | [], _ => none
  | [k], fields => if (fields.lookup k).isSome then none else some (put k (.value v) fields)
  | k :: ks, fields =>
    match fields.lookup k with
    | none => (assign? v ks []).map fun sub => put k (.table .dotted sub) fields
    | some (.table origin sub) =>
      if origin = .header || (origin = .implied && ks.length = 1) then none
      else (assign? v ks sub).map fun sub => put k (.table origin sub) fields
    | some (.tables newest older) =>
      if ks.length = 1 then none
      else (assign? v ks newest).map fun sub => put k (.tables sub older) fields
    | some (.value _) => none

/-- Open the table of a header. -/
def openTable? (key : String) (fields : Fields) : Option Fields :=
  match fields.lookup key with
  | none => some (put key (.table .header []) fields)
  | some (.table .implied sub) => some (put key (.table .header sub) fields)
  | _ => none

/-- Open a further table of a repeated header. -/
def openItem? (key : String) (fields : Fields) : Option Fields :=
  match fields.lookup key with
  | none => some (put key (.tables [] []) fields)
  | some (.tables newest older) => some (put key (.tables [] (newest :: older)) fields)
  | _ => none

mutual

/-- The value of an entry. -/
def Entry.toValue : Entry → Value
  | .value v => v
  | .table _ fields => .table (fieldsToValues fields)
  | .tables newest older =>
    .list (((Value.table (fieldsToValues newest)) :: tablesToValues older).reverse)

/-- The values of the fields of a table. -/
def fieldsToValues : List (String × Entry) → List (String × Value)
  | [] => []
  | (k, e) :: rest => (k, e.toValue) :: fieldsToValues rest

/-- The values of tables. -/
def tablesToValues : List (List (String × Entry)) → List Value
  | [] => []
  | fields :: rest => .table (fieldsToValues fields) :: tablesToValues rest

end

/-! ### Characters -/

/-- Spaces within a line. A carriage return counts as one, because it stands before line feeds
    only. -/
def isSpace (c : Char) : Bool := c = ' ' || c = '\t' || c = '\r'

/-- The delete character, which may stand in comments only. -/
def isDelete (c : Char) : Bool := c.toNat = 0x7F

/-- The characters may stand in a document: there are no control characters but tabs and line ends,
    and a carriage return stands before a line feed. -/
def areAllowed : List Char → Bool
  | [] => true
  | '\r' :: '\n' :: cs => areAllowed cs
  | c :: cs => (c = '\t' || c = '\n' || 0x20 ≤ c.toNat) && areAllowed cs

/-- Skip spaces, line ends and comments; `comment` tells that a comment is being skipped. -/
def skipBlanks (comment : Bool) : List Char → List Char
  | [] => []
  | c :: cs =>
    if comment then skipBlanks (c ≠ '\n') cs
    else if isSpace c || c = '\n' then skipBlanks false cs
    else if c = '#' then skipBlanks true cs
    else c :: cs

/-- The rest after the end of a line, which may have a comment. -/
def lineEnd? (cs : List Char) : Option (List Char) :=
  match cs.dropWhile isSpace with
  | [] => some []
  | '\n' :: rest => some rest
  | '#' :: rest => some (rest.dropWhile (· ≠ '\n'))
  | _ => none

/-! ### Texts -/

/-- The character that a letter after a backslash stands for. -/
def escapeLetter? (c : Char) : Option Char :=
  match c with
  | 'b' => some '\x08'
  | 't' => some '\t'
  | 'n' => some '\n'
  | 'f' => some '\x0c'
  | 'r' => some '\r'
  | 'e' => some '\x1b'
  | '"' => some '"'
  | '\\' => some '\\'
  | _ => none

/-- The character with the code point that hexadecimal digits write. -/
def codePoint? (digits : List Char) : Option Char := do
  let n ← Value.digits? 16 digits
  if n.isValidChar then some (Char.ofNat n) else none

/-- Put a character in front of a text that was read. -/
def before (c : Char) : List Char × List Char → List Char × List Char
  | (s, rest) => (c :: s, rest)

/-- The text in double quotes, from after the first one on, and the rest. -/
def basicText? : List Char → Option (List Char × List Char)
  | [] => none
  | '"' :: rest => some ([], rest)
  | '\n' :: _ => none
  | '\\' :: 'x' :: a :: b :: rest => do
    let c ← codePoint? [a, b]
    (basicText? rest).map (before c)
  | '\\' :: 'u' :: a :: b :: c :: d :: rest => do
    let c ← codePoint? [a, b, c, d]
    (basicText? rest).map (before c)
  | '\\' :: 'U' :: a :: b :: c :: d :: e :: f :: g :: h :: rest => do
    let c ← codePoint? [a, b, c, d, e, f, g, h]
    (basicText? rest).map (before c)
  | '\\' :: e :: rest => do
    let c ← escapeLetter? e
    (basicText? rest).map (before c)
  | c :: rest => if isDelete c then none else (basicText? rest).map (before c)

/-- The text in single quotes, from after the first one on, and the rest. -/
def literalText? : List Char → Option (List Char × List Char)
  | [] => none
  | c :: rest =>
    if c.toNat = 39 then some ([], rest)
    else if c = '\n' || isDelete c then none
    else (literalText? rest).map (before c)

/-- What closes a text of several lines, given the rest after three quotes: up to two more of them
    still belong to the text. -/
def closeLong (quote : Char) (rest : List Char) : List Char × List Char :=
  let extra := min 2 (rest.takeWhile (· = quote)).length
  (List.replicate extra quote, rest.drop extra)

/-- The text of several lines in double quotes, and the rest. A backslash at the end of a line takes
    away the gap that follows; `gap` tells that this is being done. -/
def longBasicText? (gap : Bool) : List Char → Option (List Char × List Char)
  | [] => none
  | '"' :: '"' :: '"' :: rest => some (closeLong '"' rest)
  | '\\' :: 'x' :: a :: b :: rest => do
    let c ← codePoint? [a, b]
    (longBasicText? false rest).map (before c)
  | '\\' :: 'u' :: a :: b :: c :: d :: rest => do
    let c ← codePoint? [a, b, c, d]
    (longBasicText? false rest).map (before c)
  | '\\' :: 'U' :: a :: b :: c :: d :: e :: f :: g :: h :: rest => do
    let c ← codePoint? [a, b, c, d, e, f, g, h]
    (longBasicText? false rest).map (before c)
  | '\\' :: e :: rest =>
    if isSpace e || e = '\n' then
      if ((e :: rest).dropWhile isSpace).head? = some '\n' then longBasicText? true rest else none
    else do
      let c ← escapeLetter? e
      (longBasicText? false rest).map (before c)
  | c :: rest =>
    if gap && (isSpace c || c = '\n') then longBasicText? true rest
    else if isDelete c then none
    else (longBasicText? false rest).map (before c)

/-- The text of several lines in single quotes, and the rest. -/
def longLiteralText? : List Char → Option (List Char × List Char)
  | a :: b :: c :: rest =>
    if a.toNat = 39 && b.toNat = 39 && c.toNat = 39 then some (closeLong a rest)
    else if isDelete a then none
    else (longLiteralText? (b :: c :: rest)).map (before a)
  | _ => none

/-- The text without a line end at its start. -/
def dropLineEnd : List Char → List Char
  | '\n' :: rest => rest
  | '\r' :: '\n' :: rest => rest
  | cs => cs

/-- A text in quotes at the start, and the rest. -/
def text? : List Char → Option (List Char × List Char)
  | '"' :: '"' :: '"' :: rest => longBasicText? false (dropLineEnd rest)
  | '"' :: rest => basicText? rest
  | a :: rest =>
    if a.toNat = 39 then
      match rest with
      | b :: c :: rest' =>
        if b.toNat = 39 && c.toNat = 39 then longLiteralText? (dropLineEnd rest')
        else literalText? rest
      | _ => literalText? rest
    else none
  | [] => none

/-! ### Keys -/

/-- Characters of a key without quotes. -/
def isBare (c : Char) : Bool := c.isAlphanum || c = '_' || c = '-'

/-- One part of a key, and the rest. -/
def keyPart? : List Char → Option (String × List Char)
  | [] => none
  | c :: rest =>
    if c = '"' then (basicText? rest).map fun (s, left) => (String.ofList s, left)
    else if c.toNat = 39 then (literalText? rest).map fun (s, left) => (String.ofList s, left)
    else if isBare c then
      some (String.ofList ((c :: rest).takeWhile isBare), (c :: rest).dropWhile isBare)
    else none

/-- The number of parts that a key may have, and of brackets that may be open. -/
def maxNesting : Nat := 80

/-- A key of at most `bound` parts between dots, and the rest after the spaces that follow. -/
def keyParts? : (bound : Nat) → List Char → Option (List String × List Char)
  | 0, _ => none
  | bound + 1, cs => do
    let (part, cs) ← keyPart? (cs.dropWhile isSpace)
    match cs.dropWhile isSpace with
    | '.' :: rest => (keyParts? bound rest).map fun (parts, left) => (part :: parts, left)
    | rest => some ([part], rest)

/-- A key, and the rest after the spaces that follow. -/
def key? (cs : List Char) : Option (List String × List Char) := keyParts? maxNesting cs

/-! ### Numbers and dates -/

/-- The digits of a number; an underscore may stand between two of them. -/
def digitRun? (base : Nat) (cs : List Char) : Option Nat :=
  let runs := cs.splitOn '_'
  if runs.all fun r => (Value.digits? base r).isSome then Value.digits? base runs.flatten else none

/-- A decimal number without leading zeros. -/
def decimal? (cs : List Char) : Option Nat :=
  if cs.length ≠ 1 && cs.head? = some '0' then none else digitRun? 10 cs

/-- The sign of a number and the rest. -/
def takeSign : List Char → Bool × List Char
  | '-' :: cs => (true, cs)
  | '+' :: cs => (false, cs)
  | cs => (false, cs)

/-- A whole number as its sign and its size. -/
def integer? : List Char → Option (Bool × Nat)
  | '0' :: 'x' :: cs => (digitRun? 16 cs).map (false, ·)
  | '0' :: 'o' :: cs => (digitRun? 8 cs).map (false, ·)
  | '0' :: 'b' :: cs => (digitRun? 2 cs).map (false, ·)
  | cs => (decimal? (takeSign cs).2).map ((takeSign cs).1, ·)

/-- The exponent of a number with a fraction; it may be missing. -/
def exponent? : List Char → Option Int
  | [] => some 0
  | e :: cs => do
    if e ≠ 'e' && e ≠ 'E' then none
    let n ← digitRun? 10 (takeSign cs).2
    return if (takeSign cs).1 then -n else n

/-- The least size that rounds to no finite number of double precision: half a unit above the
    greatest one. -/
def overflowBound : Nat := Nat.pow 2 1024 - Nat.pow 2 970

/-- The number `mantissa · 10 ^ exponent` rounds to a finite number of double precision. The number
    of digits before the point settles it, unless there are as many as in the bound. -/
def isFinite (mantissa : Nat) (exponent : Int) : Bool :=
  let places := (Nat.toDigits 10 mantissa).length + exponent
  if mantissa = 0 || places < 309 then true
  else if 309 < places then false
  else mantissa * Nat.pow 10 exponent.toNat < overflowBound * Nat.pow 10 (-exponent).toNat

/-- The text is a number with a fraction or an exponent and not too large, or no finite number. -/
def isFloat (cs : List Char) : Bool :=
  let cs := (takeSign cs).2
  let inRun (c : Char) : Bool := c.isDigit || c = '_'
  let whole := cs.takeWhile inRun
  let isNumber (fraction exponent : List Char) : Bool :=
    let digits := (whole ++ fraction).filter Char.isDigit
    match Value.digits? 10 digits, exponent? exponent with
    | some mantissa, some e => isFinite mantissa (e - (fraction.filter Char.isDigit).length)
    | _, _ => false
  cs = ['i', 'n', 'f'] || cs = ['n', 'a', 'n'] ||
    (decimal? whole).isSome &&
      match cs.dropWhile inRun with
      | '.' :: rest =>
        let fraction := rest.takeWhile inRun
        (digitRun? 10 fraction).isSome && isNumber fraction (rest.dropWhile inRun)
      | [] => false
      | rest => isNumber [] rest

/-- The days of a month. -/
def daysOf (year month : Nat) : Nat :=
  if month = 2 then
    if year % 4 = 0 && (year % 100 ≠ 0 || year % 400 = 0) then 29 else 28
  else if [4, 6, 9, 11].contains month then 30
  else 31

/-- The text is a day of the calendar. -/
def isDate (cs : List Char) : Bool :=
  match (cs.splitOn '-').map fun part => (part.length, Value.digits? 10 part) with
  | [(4, some y), (2, some m), (2, some d)] => 1 ≤ m && m ≤ 12 && 1 ≤ d && d ≤ daysOf y m
  | _ => false

/-- The text is a time of day. The seconds may be missing, but not before a fraction. -/
def isTime (cs : List Char) : Bool :=
  let fraction := cs.dropWhile (· ≠ '.')
  (fraction.isEmpty || (Value.digits? 10 (fraction.drop 1)).isSome) &&
    match ((cs.takeWhile (· ≠ '.')).splitOn ':').map fun part =>
      (part.length, Value.digits? 10 part) with
    | [(2, some h), (2, some m)] => fraction.isEmpty && h ≤ 23 && m ≤ 59
    | [(2, some h), (2, some m), (2, some s)] => h ≤ 23 && m ≤ 59 && s ≤ 60
    | _ => false

/-- The text is the distance of a local time from the universal one. -/
def isOffset : List Char → Bool
  | [] => true
  | ['Z'] => true
  | ['z'] => true
  | c :: cs =>
    (c = '+' || c = '-') &&
      match (cs.splitOn ':').map fun part => (part.length, Value.digits? 10 part) with
      | [(2, some h), (2, some m)] => h ≤ 23 && m ≤ 59
      | _ => false

/-- The text is a date, a time, or both. -/
def isMoment (cs : List Char) : Bool :=
  let isZone (c : Char) : Bool := c = 'Z' || c = 'z' || c = '+' || c = '-'
  let rest := cs.drop 11
  isTime cs || isDate cs ||
    isDate (cs.take 10) && ((cs.drop 10).head?.any fun c => c = 'T' || c = 't' || c = ' ') &&
      isTime (rest.takeWhile (!isZone ·)) && isOffset (rest.dropWhile (!isZone ·))

/-- The value that is written without quotes and brackets. -/
def scalar? (cs : List Char) : Option Value :=
  if cs = "true".toList then some (.bool true)
  else if cs = "false".toList then some (.bool false)
  else
    match integer? cs with
    | some (negative, n) =>
      if !negative || n = 0 then
        if n < Nat.pow 2 128 then some (.number (toString n)) else none
      else if n ≤ Nat.pow 2 127 then some (.number ("-" ++ toString n))
      else none
    | none => if isFloat cs || isMoment cs then some (.number (String.ofList cs)) else none

/-- Characters of a value without quotes and brackets. -/
def isScalarChar (c : Char) : Bool := isBare c || c = '+' || c = '.' || c = ':'

/-- The scalar at the start, and the rest. A space may stand between a date and a time. -/
def takeScalar (cs : List Char) : List Char × List Char :=
  let first := cs.takeWhile isScalarChar
  let rest := cs.dropWhile isScalarChar
  match rest with
  | ' ' :: c :: _ =>
    if isDate first && c.isDigit then
      (first ++ ' ' :: (rest.drop 1).takeWhile isScalarChar, (rest.drop 1).dropWhile isScalarChar)
    else (first, rest)
  | _ => (first, rest)

/-! ### Values -/

mutual

/-- The value at the start, and the rest. Brackets may be nested `depth` deep. -/
def value? (depth : Nat) : (bound : Nat) → List Char → Option (Value × List Char)
  | 0, _ => none
  | bound + 1, cs =>
    match cs, depth with
    | '[' :: rest, depth + 1 => (items? depth bound rest).map fun (vs, left) => (.list vs, left)
    | '\x7b' :: rest, depth + 1 =>
      (pairs? depth bound [] rest).map fun (fields, left) => (.table (fieldsToValues fields), left)
    | c :: _, _ =>
      if c = '"' || c.toNat = 39 then
        (text? cs).map fun (s, left) => (.text (String.ofList s), left)
      else (scalar? (takeScalar cs).1).map fun v => (v, (takeScalar cs).2)
    | [], _ => none

/-- The items of a list up to its end; a comma may stand after the last. -/
def items? (depth : Nat) : (bound : Nat) → List Char → Option (List Value × List Char)
  | 0, _ => none
  | bound + 1, cs =>
    match skipBlanks false cs with
    | ']' :: rest => some ([], rest)
    | cs => do
      let (v, cs) ← value? depth bound cs
      match skipBlanks false cs with
      | ',' :: rest => (items? depth bound rest).map fun (vs, left) => (v :: vs, left)
      | ']' :: rest => some ([v], rest)
      | _ => none

/-- The pairs of a table in braces up to its end, added to those that it has; a comma may stand after
    the last. -/
def pairs? (depth : Nat) : (bound : Nat) → Fields → List Char → Option (Fields × List Char)
  | 0, _, _ => none
  | bound + 1, fields, cs =>
    match skipBlanks false cs with
    | '\x7d' :: rest => some (fields, rest)
    | cs => do
      let (key, cs) ← key? cs
      match skipBlanks false cs with
      | '=' :: rest => do
        let (v, cs) ← value? depth bound (skipBlanks false rest)
        let fields ← assign? v key fields
        match skipBlanks false cs with
        | ',' :: rest => pairs? depth bound fields rest
        | '\x7d' :: rest => some (fields, rest)
        | _ => none
      | _ => none

end

/-! ### Documents -/

/-- The rest after the brackets that close a header. -/
def closeHeader? (repeated : Bool) : List Char → Option (List Char)
  | ']' :: ']' :: rest => if repeated then lineEnd? rest else none
  | ']' :: rest => if repeated then none else lineEnd? rest
  | _ => none

/-- Read the lines of a document. `header` names the table to which they belong. -/
def document? : (bound : Nat) → (header : List String) → Fields → List Char → Option Fields
  | 0, _, _, _ => none
  | bound + 1, header, fields, cs =>
    match skipBlanks false cs with
    | [] => some fields
    | '[' :: rest => do
      let repeated := rest.head? = some '['
      let (key, rest) ← key? (if repeated then rest.drop 1 else rest)
      let rest ← closeHeader? repeated rest
      let last ← key.getLast?
      let fields ← within? (if repeated then openItem? last else openTable? last) key.dropLast fields
      document? bound key fields rest
    | cs => do
      let (key, cs) ← key? cs
      match cs with
      | '=' :: rest => do
        let (v, rest) ← value? maxNesting bound (rest.dropWhile isSpace)
        let fields ← within? (assign? v key) header fields
        document? bound header fields (← lineEnd? rest)
      | _ => none

/-- Read a document. -/
def parse? (s : String) : Option Value :=
  let cs := match s.toList with
    | c :: cs => if c.toNat = 0xFEFF then cs else c :: cs
    | [] => []
  if areAllowed cs then
    (document? (4 * cs.length + 4) [] [] cs).map fun fields => .table (fieldsToValues fields)
  else none

end TreeLint.Toml
