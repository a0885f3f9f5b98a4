import TreeLint.Diagnostic.Basic
import TreeLint.Error

namespace TreeLint

/-!
# Configuration

The settings of the engine and of the printer.

* `Config` holds the settings; the default values are those of an empty configuration file.
* `Config.validate` refuses a line width or a pass limit of 0.
-/

/-- The settings. -/
structure Config where
  /-- The widest line that a group may fill before it breaks. -/
  lineWidth : Nat := 80
  /-- Spaces per level of indentation. -/
  indentWidth : Nat := 2
  /-- Indent with tabs. -/
  useTabs : Bool := false
  /-- Make fixes and do not only describe them. -/
  applyFixes : Bool := false
  /-- The largest number of passes over one tree. -/
  fixIterationCap : Nat := 10
  /-- The categories to report, in increasing order; all of them when absent. -/
  enabledCategories : Option (List String) := none
  /-- The deepest level at which a node may lie. -/
  maxDepth : Nat := 512
  deriving DecidableEq

namespace Config

/-- Names of configuration files, in the order in which they are looked for. -/
def fileNames : List String := ["weft.yaml", "weft.yml", "weft.json", "weft.toml"]

/-- The number of values of a machine word; settings are smaller. -/
def wordSize : Nat := Nat.pow 2 64

/-- The configuration if it can be used. -/
def validate (c : Config) : Except Error Config :=
  if c.lineWidth = 0 then .error (.config "lineWidth must be greater than 0")
  else if c.fixIterationCap = 0 then .error (.config "fixIterationCap must be greater than 0")
  else .ok c

/-- The category is reported. -/
def isCategoryEnabled (c : Config) (category : String) : Bool :=
  c.enabledCategories.all (·.contains category)

/-- The categories to report. -/
def categories (c : Config) : Option (List Category) :=
  c.enabledCategories.map (·.map Category.mk)

end Config

end TreeLint
