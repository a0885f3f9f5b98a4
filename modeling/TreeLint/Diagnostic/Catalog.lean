import TreeLint.Diagnostic.Basic

namespace TreeLint

/-!
# Message catalogs

A catalog gives the wordings of messages. `Catalog.add` adds a wording, in the place of an earlier
one for the same message.
-/

/-- Wordings of messages. -/
structure Catalog where
  entries : List (MessageId × String)

namespace Catalog

/-- The catalog without wordings. -/
def empty : Catalog := ⟨[]⟩

/-- The catalog with one more wording. -/
def add (c : Catalog) (id : MessageId) (template : String) : Catalog :=
  ⟨(id, template) :: c.entries⟩

/-- The wording of a message. -/
def template? (c : Catalog) (id : MessageId) : Option String := c.entries.lookup id

/-- The wording of a message, or its identifier if there is none. -/
def wording (c : Catalog) (id : MessageId) : String := (c.template? id).getD id.id

end Catalog

end TreeLint
