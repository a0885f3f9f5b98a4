import TreeLint.Config.Basic
import TreeLint.Layout.Printer
import TreeLint.Layout.Tree

namespace TreeLint

/-!
# Formatting trees

`format` prints the layout of a tree; `isFormatted` compares a text with that.
-/

/-- The settings of the printer in a configuration. -/
def Config.printOptions (c : Config) : PrintOptions := ⟨c.lineWidth, c.indentWidth, c.useTabs⟩

/-- The text of a tree when `columns` measures a character. -/
def formatWith (columns : Char → Nat) (o : PrintOptions) (tree : Node) : String :=
  (tree.layout none).printWith columns o

/-- The text of a tree. -/
def format (o : PrintOptions) (tree : Node) : String := formatWith Text.charWidth o tree

/-- The text is exactly how the tree is formatted. -/
def isFormatted (o : PrintOptions) (tree : Node) (source : String) : Bool :=
  format o tree == source

end TreeLint
