import TreeLint.Rule.Path

namespace TreeLint

/-!
# Changes of a node

A `NodeChange` says how to make another node out of the node of a path. `NodeChange.result?` makes it; it
gives nothing when there is nothing to change.

A change keeps what it does not name: span, payload and children.
-/

/-- A way to make another node out of the node of a path. -/
inductive NodeChange where
  /-- Write a text or a comment in capitals. -/
  | upperValue
  /-- Write the first small letter of a text or a comment as a capital. -/
  | upperFirst
  /-- End a text or a comment with `s`. -/
  | append (s : String)
  /-- Add `s` to a text or a comment. -/
  | grow (s : String)
  /-- Change one text into the other and back. -/
  | swap (a b : String)
  /-- Make `s` the text. -/
  | setValue (s : String)
  /-- Make `s` the name. -/
  | rename (s : String)
  /-- Write the name in small letters. -/
  | lowerName
  /-- Give an element an attribute. -/
  | addAttribute (a : Attribute)
  /-- Make an element close itself, or not. -/
  | setSelfClosing (v : Bool)
  /-- Put the given node in place. -/
  | become (node : Node)
  /-- Put an element around the node. -/
  | wrap (tag : String)
  /-- Put the first child in place. -/
  | unwrap
  /-- Leave out the children of a kind. -/
  | dropKind (k : Kind)
  /-- Leave out the child with this index. -/
  | dropAt (index : Nat)
  | reverseChildren
  /-- Repeat the first child at the end. -/
  | repeatFirst
  /-- Add a last child. -/
  | push (node : Node)
  /-- Leave out all children. -/
  | clear
  | setSpan (s : Span)
  /-- Make an equal node. -/
  | copy
  /-- Put an element around the parent itself. -/
  | embedParent (tag : String)
  /-- Put an element around a node equal to the parent. -/
  | embedParentCopy (tag : String)

namespace NodeChange

/-! ### Letters -/

def isSmall (c : Char) : Bool := 'a' ≤ c && c ≤ 'z'

def isCapital (c : Char) : Bool := 'A' ≤ c && c ≤ 'Z'

/-- The text with its first small letter as a capital. -/
def capitalizeFirst : List Char → List Char
  | [] => []
  | c :: cs => if isSmall c then c.toUpper :: cs else c :: capitalizeFirst cs

/-! ### Parts of a node -/

/-- The node of the path with another payload. -/
def withPayload (p : Path) (payload : Payload) : Graft :=
  Graft.build payload p.node.span p.here.graft.children

/-- The node of the path with other children. -/
def withChildren (p : Path) (children : List Graft) : Graft :=
  Graft.build p.node.payload p.node.span children

/-- An element of its own around some nodes. -/
def around (tag : String) (children : List Graft) : Graft :=
  Graft.build (.element tag [] false) Span.zero children

/-- Change the text of a text or a comment. -/
def onValue (p : Path) (f : String → Option String) : Option Graft := do
  let v ← p.node.value?
  let w ← f v
  return withPayload p (p.node.payload.withValue w)

/-- Change the name. -/
def onName (p : Path) (f : String → Option String) : Option Graft := do
  let v ← p.node.name?
  let w ← f v
  return withPayload p (p.node.payload.withName w)

/-- Change the children. -/
def onChildren (p : Path) (f : List Graft → Option (List Graft)) : Option Graft :=
  (f p.here.graft.children).map (withChildren p)

/-- Make `s` the value if it is not. -/
def become? (s v : String) : Option String := if v = s then none else some s

/-! ### Results -/

/-- The changed node. `mark` is the place of the node that the change writes out. -/
def result? (mark : Mark) (p : Path) : NodeChange → Option Graft
  | upperValue => onValue p fun v =>
    if v.toList.any isSmall then some (String.ofList (v.toList.map Char.toUpper)) else none
  | upperFirst => onValue p fun v =>
    if v.toList.any isSmall then some (String.ofList (capitalizeFirst v.toList)) else none
  | append s => onValue p fun v =>
    if s.toList.isSuffixOf v.toList then none else some (v ++ s)
  | grow s => onValue p fun v => some (v ++ s)
  | swap a b => onValue p fun v => if v = a then some b else if v = b then some a else none
  | setValue s => onValue p (become? s)
  | rename s => onName p (become? s)
  | lowerName => onName p fun v =>
    if v.toList.any isCapital then some (String.ofList (v.toList.map Char.toLower)) else none
  | addAttribute a =>
    match p.node.payload with
    | .element tag attributes selfClosing =>
      if attributes.any (·.name = a.name) then none
      else some (withPayload p (.element tag (attributes ++ [a]) selfClosing))
    | _ => none
  | setSelfClosing v =>
    match p.node.payload with
    | .element tag attributes selfClosing =>
      if selfClosing = v then none else some (withPayload p (.element tag attributes v))
    | _ => none
  | become node => some (Graft.ofWritten mark node)
  | wrap tag => some (around tag [p.here.graft])
  | unwrap => p.here.graft.children.head?
  | dropKind k => onChildren p fun cs =>
    if cs.any (·.node.kind = k) then some (cs.filter (·.node.kind ≠ k)) else none
  | dropAt index => onChildren p fun cs =>
    if index < cs.length then some (cs.eraseIdx index) else none
  | reverseChildren => onChildren p fun cs => if cs.length < 2 then none else some cs.reverse
  | repeatFirst => onChildren p fun cs => cs.head?.map fun c => cs ++ [c]
  | push node => onChildren p fun cs =>
    if cs.getLast?.any (·.node == node) then none else some (cs ++ [Graft.ofWritten mark node])
  | clear => onChildren p fun cs => if cs.isEmpty then none else some []
  | setSpan s => some (Graft.build p.node.payload s p.here.graft.children)
  | copy => some (withChildren p p.here.graft.children)
  | embedParent tag => p.parent?.map fun a => around tag [a.enclosing]
  | embedParentCopy tag => p.parent?.map fun a => around tag [withChildren a a.here.graft.children]

end NodeChange

end TreeLint
