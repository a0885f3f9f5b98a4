namespace TreeLint

/-!
# Kinds of nodes

The schema is closed: nine kinds, in a fixed order.

* `Kind` is the tag that rules are looked up by; `Kind.all` lists the kinds in order.
* `Kind.name` is the stable name that messages use, `Kind.title` the one that descriptions of
  paths use.
* `isVoidElement` knows the markup elements that never have children.
-/

/-- The kind of a syntax tree node. -/
inductive Kind where
  | document
  | element
  | text
  | comment
  | interface
  | typeParameterList
  | typeParameter
  | interfaceBody
  | propertySignature
  deriving DecidableEq, Repr

namespace Kind

/-- Every kind, in the order of the schema. -/
def all : List Kind :=
  [document, element, text, comment, interface, typeParameterList, typeParameter, interfaceBody,
    propertySignature]

/-- Position of the kind in `all`. -/
def index : Kind → Nat
  | document => 0
  | element => 1
  | text => 2
  | comment => 3
  | interface => 4
  | typeParameterList => 5
  | typeParameter => 6
  | interfaceBody => 7
  | propertySignature => 8

/-- The stable name of the kind. -/
def name : Kind → String
  | document => "document"
  | element => "element"
  | text => "text"
  | comment => "comment"
  | interface => "interface"
  | typeParameterList => "type-parameter-list"
  | typeParameter => "type-parameter"
  | interfaceBody => "interface-body"
  | propertySignature => "property-signature"

/-- The name of the kind in the description of a path. -/
def title : Kind → String
  | document => "Document"
  | element => "Element"
  | text => "Text"
  | comment => "Comment"
  | interface => "Interface"
  | typeParameterList => "TypeParameterList"
  | typeParameter => "TypeParameter"
  | interfaceBody => "InterfaceBody"
  | propertySignature => "PropertySignature"

/-- The kind with the given stable name. -/
def ofName? (s : String) : Option Kind := all.find? (·.name == s)

/-- The list of kinds is complete. -/
theorem mem_all (k : Kind) : k ∈ all := by cases k <;> decide

/-- A kind is found by its name. -/
theorem ofName?_name (k : Kind) : ofName? k.name = some k := by cases k <;> decide

end Kind

/-- Version of the schema of kinds. -/
def schemaVersion : Nat := 1

/-- The markup elements that never have children. -/
def voidElements : List String :=
  ["area", "base", "br", "col", "embed", "hr", "img", "input", "link", "meta", "source", "track",
    "wbr"]

/-- Whether `tag` names a void element; the case of ASCII letters does not matter. -/
def isVoidElement (tag : String) : Bool :=
  voidElements.any fun void => void.toList == tag.toList.map Char.toLower

end TreeLint
