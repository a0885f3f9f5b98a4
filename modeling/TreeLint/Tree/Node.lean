import TreeLint.Tree.Kind
import TreeLint.Tree.Location

namespace TreeLint

/-!
# Syntax trees

A node has a payload (its kind and the fields of that kind), a source span and its children in
document order.

* `Node.same`, also written `==`, compares payloads and children. Spans are metadata and do not
  take part.
* `Node.get?` follows a location, `Node.size` counts nodes, `Node.holds` looks for a node that is
  structurally equal to a given one.
-/

/-- A range of source offsets. -/
structure Span where
  start : UInt32
  stop : UInt32
  start_le_stop : start ≤ stop
  deriving DecidableEq

namespace Span

/-- The empty range at offset 0, which a node has until it is positioned. -/
def zero : Span := ⟨0, 0, UInt32.le_refl 0⟩

/-- The range between two offsets, if they are in order. -/
def ofBounds? (start stop : UInt32) : Option Span :=
  if h : start ≤ stop then some ⟨start, stop, h⟩ else none

end Span

/-- An attribute of an element; one without a value is bare. -/
structure Attribute where
  name : String
  value : Option String
  deriving DecidableEq

/-- The kind of a node together with the fields of that kind. -/
inductive Payload where
  | document
  | element (tag : String) (attributes : List Attribute) (selfClosing : Bool)
  | text (value : String)
  | comment (value : String)
  | interface (name : String)
  | typeParameterList
  | typeParameter (name : String) (constraint default : Option String)
  | interfaceBody
  | propertySignature (name : String) (optional readonly : Bool) (declaredType : Option String)
  deriving DecidableEq

namespace Payload

/-- The kind of a payload. -/
def kind : Payload → Kind
  | document => .document
  | element .. => .element
  | text _ => .text
  | comment _ => .comment
  | interface _ => .interface
  | typeParameterList => .typeParameterList
  | typeParameter .. => .typeParameter
  | interfaceBody => .interfaceBody
  | propertySignature .. => .propertySignature

/-- The payload with another text, if it holds one. -/
def withValue (payload : Payload) (value : String) : Payload :=
  match payload with
  | text _ => text value
  | comment _ => comment value
  | p => p

/-- The payload with another name, if it has one. -/
def withName (payload : Payload) (name : String) : Payload :=
  match payload with
  | element _ attributes selfClosing => element name attributes selfClosing
  | interface _ => interface name
  | typeParameter _ constraint default => typeParameter name constraint default
  | propertySignature _ optional readonly declaredType =>
    propertySignature name optional readonly declaredType
  | p => p

end Payload

/-- One syntactic construct with all that lies below it. -/
structure Node where
  payload : Payload
  span : Span
  children : List Node

namespace Node

/-- A node without a position. -/
def ofPayload (payload : Payload) (children : List Node) : Node := ⟨payload, Span.zero, children⟩

def kind (n : Node) : Kind := n.payload.kind

def hasChildren (n : Node) : Bool := !n.children.isEmpty

/-- The same node with another payload. -/
def withPayload (n : Node) (payload : Payload) : Node := { n with payload }

/-- The same node with other children. -/
def withChildren (n : Node) (children : List Node) : Node := { n with children }

/-- The same node at another place in the source. -/
def withSpan (n : Node) (span : Span) : Node := { n with span }

/-- The text of a comment. -/
def commentText? (n : Node) : Option String :=
  match n.payload with
  | .comment value => some value
  | _ => none

/-- The text that a text or a comment holds. -/
def value? (n : Node) : Option String :=
  match n.payload with
  | .text value => some value
  | .comment value => some value
  | _ => none

/-- The name of a node: the tag of an element, the name of a declaration. -/
def name? (n : Node) : Option String :=
  match n.payload with
  | .element tag .. => some tag
  | .interface name => some name
  | .typeParameter name .. => some name
  | .propertySignature name .. => some name
  | _ => none

/-- The name of a property signature. -/
def propertyName? (n : Node) : Option String :=
  match n.payload with
  | .propertySignature name .. => some name
  | _ => none

/-! ### Structural equality -/

mutual

/-- Structural equality: equal payloads and structurally equal children, whatever the spans. -/
def same : Node → Node → Bool
  | ⟨p, _, cs⟩, ⟨q, _, ds⟩ => p = q && sameAll cs ds

/-- Structural equality of child lists, position by position. -/
def sameAll : List Node → List Node → Bool
  | [], [] => true
  | c :: cs, d :: ds => same c d && sameAll cs ds
  | _, _ => false

end

instance : BEq Node := ⟨same⟩

/-! ### Measures and search -/

mutual

/-- The number of nodes of the tree. -/
def size : Node → Nat
  | ⟨_, _, cs⟩ => 1 + sizeAll cs

/-- The number of nodes of several trees. -/
def sizeAll : List Node → Nat
  | [] => 0
  | c :: cs => size c + sizeAll cs

end

mutual

/-- The node, or one below it, is structurally equal to `needle`. -/
def holds : Node → (needle : Node) → Bool
  | n@⟨_, _, cs⟩, needle => n == needle || holdsAny cs needle

/-- Some tree of the list holds `needle`. -/
def holdsAny : List Node → (needle : Node) → Bool
  | [], _ => false
  | c :: cs, needle => c.holds needle || holdsAny cs needle

end

/-- The node that the child indices lead to. -/
def descend? : Node → List UInt32 → Option Node
  | n, [] => some n
  | n, i :: rest => n.children[i.toNat]?.bind fun c => descend? c rest

/-- The node at a location below this one. -/
def get? (n : Node) (l : Location) : Option Node := n.descend? l.indices

end Node

end TreeLint
