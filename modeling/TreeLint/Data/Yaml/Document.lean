import TreeLint.Data.Yaml.Token

namespace TreeLint.Yaml

/-!
# YAML documents

* `Node` is a node of a document. An alias refers to a node by a number.
* `nodeAt` reads a node from tokens, `document?` a text with one document.
* `Node.value` is the value of a node, `namedValues` gives those that aliases refer to.

The reader of nodes recurses on a bound that the number of tokens gives.
-/

/-- A node of a document, with the number by which aliases refer to it. -/
inductive Node where
  /-- An alias. -/
  | reference (number : Nat)
  | scalar (number? : Option Nat) (tag? : Option String) (style : ScalarStyle) (text : String)
  | sequence (number? : Option Nat) (items : List Node)
  | mapping (number? : Option Nat) (pairs : List (Node × Node))

/-- The node that stands where nothing is written. -/
def Node.empty : Node := .scalar none none .plain ""

/-! ### Reading nodes -/

/-- What is left of a document, and what its names mean. -/
structure Unread where
  tokens : List Token
  /-- What the handles of tags stand for. -/
  handles : List (String × String) := Tag.standardHandles
  /-- The numbers of the anchors so far, the latest first. -/
  anchors : List (String × Nat) := []

/-- A reader of tokens. -/
abbrev Reading := StateT Unread Option

namespace Reading

/-- The next token. -/
def peek : Reading (Option Token) := do return (← get).tokens.head?

/-- Go past a token. -/
def skip : Reading Unit := modify fun s => { s with tokens := s.tokens.tail }

/-- Go past the given token, if it comes next, and tell whether it does. -/
def accept (t : Token) : Reading Bool := do
  if (← peek) = some t then
    skip
    return true
  else return false

/-- Go past the given token, which must come next. -/
def expect (t : Token) : Reading Unit := do
  if !(← accept t) then failure

/-- Give a number to an anchor: the number of different anchors so far. An anchor that occurs again
    does not count, so that a number can be given twice. -/
def declare (name : String) : Reading Nat := do
  let s ← get
  let number := s.anchors.length
  set { s with anchors := (name, number) :: s.anchors.filter (·.1 ≠ name) }
  return number

/-- The number that an alias refers to. -/
def refer (name : String) : Reading Nat := do
  match (← get).anchors.lookup name with
  | some number => return number
  | none => failure

/-- Read an anchor. -/
def anchor? : Reading (Option String) := do
  match ← peek with
  | some (.anchor name) =>
    skip
    return some name
  | _ => return none

/-- Read a tag, and write it out. -/
def tag? : Reading (Option String) := do
  match ← peek with
  | some (.tag t) =>
    skip
    match t.resolve? (← get).handles with
    | some tag => return some tag
    | none => failure
  | _ => return none

/-- Read an anchor and a tag, which may come in either order and may both be missing. -/
def properties : Reading (Option String × Option String) := do
  match ← anchor? with
  | some name => return (some name, ← tag?)
  | none =>
    let tag ← tag?
    if tag.isSome then return (← anchor?, tag) else return (none, none)

end Reading

open Reading

mutual

/-- Read a node. Block collections are read only if `block` is set, and a block sequence without
    indentation of its own only if `dashes` is set. -/
def nodeAt (block dashes : Bool) : (bound : Nat) → Reading Node
  | 0 => failure
  | bound + 1 => do
    if let some (.reference name) ← peek then
      skip
      return .reference (← refer name)
    let (name?, tag?) ← properties
    let number? ← name?.mapM declare
    match ← peek, block, dashes with
    | some .dash, _, true => return .sequence number? (← dashedItems bound [])
    | some (.scalar style text), _, _ =>
      skip
      return .scalar number? (if tag? = some "!" then none else tag?) style text
    | some .flowSequence, _, _ =>
      skip
      return .sequence number? (← flowItems bound [])
    | some .flowMapping, _, _ =>
      skip
      return .mapping number? (← flowPairs bound [])
    | some .blockSequence, true, _ =>
      skip
      return .sequence number? (← blockItems bound [])
    | some .blockMapping, true, _ =>
      skip
      return .mapping number? (← blockPairs bound [])
    | _, _, _ =>
      if name?.isSome || tag?.isSome then return .scalar number? tag? .plain "" else failure

/-- Read a node, or nothing if one of the given tokens comes next. -/
def nodeUnless (stops : List Token) (block dashes : Bool) : (bound : Nat) → Reading Node
  | 0 => failure
  | bound + 1 => do
    if (← peek).any stops.contains then return .empty else nodeAt block dashes bound

/-- Read the items of a block sequence to its end, put after `items`, which stand last one first. -/
def blockItems : (bound : Nat) → (items : List Node) → Reading (List Node)
  | 0, _ => failure
  | bound + 1, items => do
    if ← accept .dash then
      blockItems bound ((← nodeUnless [.dash, .blockEnd] true false bound) :: items)
    else
      expect .blockEnd
      return items.reverse

/-- Read the items of a block sequence that ends with its last dash. -/
def dashedItems : (bound : Nat) → (items : List Node) → Reading (List Node)
  | 0, _ => failure
  | bound + 1, items => do
    if ← accept .dash then
      let item ← nodeUnless [.dash, .key, .value, .blockEnd] true false bound
      dashedItems bound (item :: items)
    else return items.reverse

/-- Read the pairs of a block mapping to its end. -/
def blockPairs : (bound : Nat) → (pairs : List (Node × Node)) → Reading (List (Node × Node))
  | 0, _ => failure
  | bound + 1, pairs => do
    if ← accept .key then
      let stops := [.key, .value, .blockEnd]
      let key ← nodeUnless stops true true bound
      let value ← if ← accept .value then nodeUnless stops true true bound else pure .empty
      blockPairs bound ((key, value) :: pairs)
    else
      expect .blockEnd
      return pairs.reverse

/-- Read the items of a flow sequence to its end. A pair among them is a mapping of its own. -/
def flowItems : (bound : Nat) → (items : List Node) → Reading (List Node)
  | 0, _ => failure
  | bound + 1, items => do
    if ← accept .flowSequenceEnd then return items.reverse
    if !items.isEmpty then expect .comma
    if ← accept .flowSequenceEnd then return items.reverse
    if ← accept .key then
      -- The token after a key that is missing is skipped, whichever it is.
      let key ←
        if (← peek).any [.value, .comma, .flowSequenceEnd].contains then do
          skip
          pure .empty
        else nodeAt false false bound
      let value ←
        if ← accept .value then nodeUnless [.comma, .flowSequenceEnd] false false bound
        else pure .empty
      flowItems bound (.mapping none [(key, value)] :: items)
    else flowItems bound ((← nodeAt false false bound) :: items)

/-- Read the pairs of a flow mapping to its end. A node that no key mark precedes is a key without a
    value. -/
def flowPairs : (bound : Nat) → (pairs : List (Node × Node)) → Reading (List (Node × Node))
  | 0, _ => failure
  | bound + 1, pairs => do
    if ← accept .flowMappingEnd then return pairs.reverse
    if !pairs.isEmpty then expect .comma
    if ← accept .flowMappingEnd then return pairs.reverse
    if ← accept .key then
      let key ← nodeUnless [.value, .comma, .flowMappingEnd] false false bound
      let value ←
        if ← accept .value then nodeUnless [.comma, .flowMappingEnd] false false bound
        else pure .empty
      flowPairs bound ((key, value) :: pairs)
    else flowPairs bound ((← nodeAt false false bound, .empty) :: pairs)

end

/-! ### Documents -/

/-- The directives are of a known version, and none is given twice. -/
def areValid : List Directive → Bool
  | [] => true
  | .version major minor :: more =>
    major = 1 && (minor = 1 || minor = 2) &&
      more.all (fun | .version _ _ => false | _ => true) && areValid more
  | .handle name _ :: more =>
    more.all (fun | .handle other _ => other ≠ name | _ => true) && areValid more

/-- The directives at the start of a text. -/
def leadingDirectives (tokens : List Token) : List Directive :=
  (tokens.takeWhile fun | .directive _ => true | _ => false).filterMap
    fun | .directive d => some d | _ => none

/-- What the handles of tags stand for after the directives. -/
def handlesAfter (directives : List Directive) : List (String × String) :=
  (directives.filterMap fun | .handle name meaning => some (name, meaning) | _ => none)
    ++ Tag.standardHandles

/-- Read the root of a document. After a mark of its start, a document may be empty. -/
def root (bound : Nat) : Reading Node := do
  let directives := leadingDirectives (← get).tokens
  if !areValid directives then failure
  modify fun s =>
    { s with tokens := s.tokens.drop directives.length, handles := handlesAfter directives }
  if !directives.isEmpty then expect .documentStart
  else if !(← accept .documentStart) then return ← nodeAt true false bound
  match ← peek with
  | none | some .documentStart | some .documentEnd | some (.directive _) => return .empty
  | _ => nodeAt true false bound

/-- Read a text with one document. A text without any token is an empty document. -/
def document? (text : String) : Option Node := do
  match ← tokens? text with
  | [] => some .empty
  | tokens =>
    let (node, unread) ← root (4 * tokens.length + 4) |>.run { tokens := tokens }
    if unread.tokens.all (· = .documentEnd) then some node else none

/-! ### Values -/

namespace Node

/-- Enter a node by its number, if it has one. -/
def enterAt (nodes : Array Node) (number? : Option Nat) (node : Node) : Array Node :=
  match number? with
  | none => nodes
  | some number =>
    if number < nodes.size then nodes.setIfInBounds number node else nodes.push node

mutual

/-- Enter the node and the nodes in it by their numbers, in the order in which they begin. A later
    node takes the number of an earlier one. -/
def enter (nodes : Array Node) : Node → Array Node
  | reference _ => nodes
  | scalar number? tag? style text =>
    enterAt nodes number? (scalar number? tag? style text)
  | sequence number? items => enterAll (enterAt nodes number? (sequence number? items)) items
  | mapping number? pairs => enterPairs (enterAt nodes number? (mapping number? pairs)) pairs

/-- Enter nodes one after the other. -/
def enterAll (nodes : Array Node) : List Node → Array Node
  | [] => nodes
  | node :: more => enterAll (enter nodes node) more

/-- Enter keys and values one after the other. -/
def enterPairs (nodes : Array Node) : List (Node × Node) → Array Node
  | [] => nodes
  | (key, value) :: more => enterPairs (enter (enter nodes key) value) more

end

mutual

/-- The value of a node, given the values of the nodes that aliases refer to. Only scalars can be
    keys of tables. -/
def value (named : Array Value) : Node → Value
  | reference number => named.getD number .unreadable
  | scalar _ tag? .plain text => .plain text tag?
  | scalar _ (some tag) .literal text => .lines text tag
  | scalar _ _ _ text => .text text
  | sequence _ items => .list (values named items)
  | mapping _ pairs => ((fields? named pairs).map Value.table).getD .unreadable

/-- The values of nodes. -/
def values (named : Array Value) : List Node → List Value
  | [] => []
  | node :: more => value named node :: values named more

/-- The keys and values of pairs. -/
def fields? (named : Array Value) : List (Node × Node) → Option (List (String × Value))
  | [] => some []
  | (key, v) :: more => do
    let key ← (value named key).text?
    return (key, value named v) :: (← fields? named more)

end

end Node

/-- The values of the nodes that aliases refer to. Aliases in these nodes are followed in turn, as
    often as the given number says. -/
def namedValues (nodes : Array Node) : (depth : Nat) → Array Value
  | 0 => #[]
  | depth + 1 => nodes.map (Node.value (namedValues nodes depth))

end TreeLint.Yaml
