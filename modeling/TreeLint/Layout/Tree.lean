import TreeLint.Layout.Document
import TreeLint.Text.Blank
import TreeLint.Tree.Node

namespace TreeLint

/-!
# The layout of a tree

`Node.layout` gives the document of a node. The kind of the parent decides only whether a property
ends in a semicolon. Spaces that may break stand inside groups; a space that must not break is part
of the token beside it.
-/

namespace Layout

open Document

/-- The text between the quotes: double quotes are written as an entity. -/
def escapeQuotes (value : String) : String :=
  String.join (value.toList.map fun c => if c = '"' then "&quot;" else String.singleton c)

/-- The single quote. -/
def singleQuote : Char := Char.ofNat 39

/-- The written form of an attribute. The value stands between double quotes, or between single
    quotes when it has double quotes and no single ones. -/
def attributeText (a : Attribute) : String :=
  match a.value with
  | none => a.name
  | some value =>
    if value.toList.contains '"' && !value.toList.contains singleQuote then
      a.name ++ "='" ++ value ++ "'"
    else a.name ++ "=\"" ++ escapeQuotes value ++ "\""

/-- Each document on a line of its own, one level deeper. -/
def indentedLines (docs : List Document) : Document :=
  groupOf 1 (docs.flatMap fun d => [lineBreak, d])

/-- An element. Children that are all texts stay on the line of the tags. -/
def element (tag : String) (attributes : List Attribute) (selfClosing : Bool)
    (children : List (Kind × Document)) : Document :=
  let head := groupOf 1
    (token "<" :: text tag :: attributes.flatMap fun a => [space, text (attributeText a)])
  if selfClosing && children.isEmpty then concat [head, token " />"]
  else
    let close := concat [token "</", text tag, token ">"]
    if children.all (·.1 = .text) then
      concat (head :: token ">" :: children.map (·.2) ++ [close])
    else concat [head, token ">", indentedLines (children.map (·.2)), lineBreak, close]

/-- A comment, without the blanks around its text. -/
def comment (value : String) : Document :=
  let value := Text.trim value
  if value.isEmpty then token "<!---->"
  else concat [token "<!-- ", text value, token " -->"]

/-- An interface: its body is set off by a space, a type parameter list is not. -/
def interface (name : String) (children : List (Kind × Document)) : Document :=
  concat (token "interface " :: text name :: children.flatMap fun (kind, d) =>
    if kind = .interfaceBody then [token " ", d] else [d])

/-- The documents with a comma and a space between any two. -/
def separated : List Document → List Document
  | [] => []
  | [d] => [d]
  | d :: ds => d :: token "," :: space :: separated ds

/-- A type parameter with its constraint and its default. -/
def typeParameter (name : String) (constraint default : Option String) : Document :=
  groupOf 1
    (text name ::
      (constraint.toList.flatMap fun c => [space, token "extends", space, text c]) ++
      default.toList.flatMap fun d => [space, token "=", space, text d])

/-- The body of an interface. -/
def interfaceBody (children : List Document) : Document :=
  if children.isEmpty then token "\x7b\x7d"
  else concat [token "\x7b", indentedLines children, lineBreak, token "\x7d"]

/-- A property. It ends in a semicolon inside the body of an interface. -/
def propertySignature (name : String) (optional readonly : Bool) (declaredType : Option String)
    (parent : Option Kind) : Document :=
  concat
    ((if readonly then [token "readonly "] else []) ++ [text name] ++
      (if optional then [token "?"] else []) ++
      (declaredType.toList.flatMap fun a => [token ": ", text a]) ++
      if parent = some .interfaceBody then [token ";"] else [])

/-- The document of a payload, given the documents of the children with their kinds. -/
def ofPayload (parent : Option Kind) (payload : Payload) (children : List (Kind × Document)) :
    Document :=
  match payload with
  | .document => concat (children.flatMap fun (_, d) => [d, lineBreak])
  | .element tag attributes selfClosing => element tag attributes selfClosing children
  | .text value => text value
  | .comment value => comment value
  | .interface name => interface name children
  | .typeParameterList =>
    groupOf 1 (token "<" :: separated (children.map (·.2)) ++ [token ">"])
  | .typeParameter name constraint default => typeParameter name constraint default
  | .interfaceBody => interfaceBody (children.map (·.2))
  | .propertySignature name optional readonly declaredType =>
    propertySignature name optional readonly declaredType parent

end Layout

mutual

/-- The document of a node, whose parent is of the given kind. -/
def Node.layout (parent : Option Kind) : Node → Document
  | ⟨payload, _, cs⟩ => Layout.ofPayload parent payload (layoutAll payload.kind cs)

/-- The documents of the children of a node of the given kind, each with the kind of the child. -/
def Node.layoutAll (parent : Kind) : List Node → List (Kind × Document)
  | [] => []
  | c :: cs => (c.kind, c.layout (some parent)) :: layoutAll parent cs

end

end TreeLint
