import TreeLint.Diagnostic.Catalog
import TreeLint.Rule.Registry

namespace TreeLint.Builtin

/-!
# The rules of the library

Six rules, in the order of their registration (`rules`), and the wordings of their messages
(`catalog`).

* `preferSelfClosing`: a void element without children is written self-closing.
* `addSelfClosing`: so is any other element without children.
* `noEmptyComment`: an empty comment goes.
* `noUnknownConstraint`: a constraint that every type meets goes.
* `noEmptyInterface`: an interface should declare something; there is no fix.
* `noDuplicateMember`: of the properties of one name only the first stays. It looks at an
  interface body after its members.
-/

/-! ### Self-closing elements -/

/-- The element without children that is not written self-closing: its tag and attributes. -/
def openEmptyElement? (n : Node) : Option (String × List Attribute) :=
  match n.payload with
  | .element tag attributes false => if n.hasChildren then none else some (tag, attributes)
  | _ => none

/-- Ask for the self-closing form of an element without children whose tag passes the test. -/
def closeElement (test : String → Bool) (category : Category) (message : MessageId) : Callback :=
  fun p c =>
    match openEmptyElement? p.node with
    | some (tag, attributes) =>
      if test tag then
        Reaction.repair p c category message (p.node.withPayload (.element tag attributes true))
      else Reaction.nothing
    | none => Reaction.nothing

def preferSelfClosing : Rule where
  name := "html/prefer-self-closing"
  category := ⟨"HTML_PREFER_SELF_CLOSING"⟩
  accepts k := k = .element
  enter := some
    (closeElement isVoidElement ⟨"HTML_PREFER_SELF_CLOSING"⟩ ⟨"html.voidElementNotSelfClosing"⟩)
  exit := none

def addSelfClosing : Rule where
  name := "ast/add-self-closing"
  category := ⟨"AST_ADD_SELF_CLOSING"⟩
  accepts k := k = .element
  enter := some
    (closeElement (fun tag => !isVoidElement tag) ⟨"AST_ADD_SELF_CLOSING"⟩
      ⟨"ast.emptyElementNotSelfClosing"⟩)
  exit := none

/-! ### Comments -/

/-- The node is a comment of blanks only. -/
def isEmptyComment (n : Node) : Bool := n.commentText?.any (Text.trim · == "")

def noEmptyComment : Rule where
  name := "html/no-empty-comment"
  category := ⟨"HTML_NO_EMPTY_COMMENT"⟩
  accepts k := k = .comment
  enter := some fun p c =>
    if isEmptyComment p.node then
      Reaction.discard p c ⟨"HTML_NO_EMPTY_COMMENT"⟩ ⟨"html.emptyComment"⟩
    else Reaction.nothing
  exit := none

/-! ### Type parameters -/

/-- The constraint is one that every type meets. -/
def isTopType (constraint : String) : Bool :=
  Text.trim constraint == "unknown" || Text.trim constraint == "any"

def noUnknownConstraint : Rule where
  name := "ts/no-unknown-constraint"
  category := ⟨"TS_NO_UNNECESSARY_CONSTRAINT"⟩
  accepts k := k = .typeParameter
  enter := some fun p c =>
    match p.node.payload with
    | .typeParameter name (some constraint) default =>
      if isTopType constraint then
        Reaction.repair p c ⟨"TS_NO_UNNECESSARY_CONSTRAINT"⟩ ⟨"ts.unnecessaryConstraint"⟩
          (p.node.withPayload (.typeParameter name none default))
      else Reaction.nothing
    | _ => Reaction.nothing
  exit := none

/-! ### Interfaces -/

/-- The first body of the interface declares nothing. -/
def hasEmptyBody (n : Node) : Bool :=
  (n.children.find? (·.kind = .interfaceBody)).any fun body => !body.hasChildren

def noEmptyInterface : Rule where
  name := "ts/no-empty-interface"
  category := ⟨"TS_NO_EMPTY_INTERFACE"⟩
  accepts k := k = .interface
  enter := some fun p _ =>
    if hasEmptyBody p.node then
      Reaction.report p ⟨"TS_NO_EMPTY_INTERFACE"⟩ ⟨"ts.emptyInterface"⟩
    else Reaction.nothing
  exit := none

/-- The members without the properties whose name is in `seen` or was declared before. -/
def distinctMembers (seen : List String) : List Node → List Node
  | [] => []
  | m :: ms =>
    match m.propertyName? with
    | none => m :: distinctMembers seen ms
    | some name =>
      if seen.contains name then distinctMembers seen ms
      else m :: distinctMembers (name :: seen) ms

def noDuplicateMember : Rule where
  name := "ts/no-duplicate-member"
  category := ⟨"TS_NO_DUPLICATE_MEMBER"⟩
  accepts k := k = .interfaceBody
  enter := none
  exit := some fun p c =>
    let members := distinctMembers [] p.node.children
    if members.length = p.node.children.length then Reaction.nothing
    else
      Reaction.repair p c ⟨"TS_NO_DUPLICATE_MEMBER"⟩ ⟨"ts.duplicateMember"⟩
        (p.node.withChildren members)

/-! ### The collection -/

/-- The rules in the order of their registration. -/
def rules : List Rule :=
  [preferSelfClosing, addSelfClosing, noEmptyComment, noUnknownConstraint, noEmptyInterface,
    noDuplicateMember]

/-- The registry of the rules; it supports every kind. -/
def registry : Registry where
  rules := rules
  supports := fun _ => true
  names_nodup := by decide

/-- The wordings of the messages. -/
def catalog : Catalog :=
  [ ("html.voidElementNotSelfClosing", "Void elements should be self-closing"),
    ("ast.emptyElementNotSelfClosing", "Elements without children should be self-closing"),
    ("html.emptyComment", "Empty comments should be removed"),
    ("ts.unnecessaryConstraint",
      "Constraining a type parameter to `unknown` or `any` has no effect"),
    ("ts.emptyInterface", "Interfaces should declare at least one member"),
    ("ts.duplicateMember", "Interface members should not be declared twice") ].foldl
    (fun c (id, template) => c.add ⟨id⟩ template) Catalog.empty

end TreeLint.Builtin
