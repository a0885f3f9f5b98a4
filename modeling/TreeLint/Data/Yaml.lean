import TreeLint.Data.Yaml.Document

namespace TreeLint.Yaml

/-!
# YAML

A YAML text is read in three steps: `tokens?` takes it apart, `document?` builds the nodes of its one
document, and `parse?` gives the value of the root.

* A plain scalar stays a `Value.plain`, an empty document is the empty plain scalar.
* An alias stands for the node that it refers to. An alias inside such a node is followed too, and
  one inside the node that this leads to; beyond that it is `Value.unreadable`. A list of texts, the
  deepest value that anyone asks for, needs no more.
-/

/-- Read a text with one document. -/
def parse? (text : String) : Option Value := do
  let root ← document? text
  return root.value (namedValues (root.enter #[]) 2)

end TreeLint.Yaml
