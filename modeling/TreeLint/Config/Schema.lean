import TreeLint.Config.Basic
import TreeLint.Data.Value

namespace TreeLint.Config

/-!
# The schema of configuration files

`schema` is a JSON schema of the settings, for editors and for checks outside the engine.
-/

/-- A natural number as a value. -/
def ofNatural (n : Nat) : Value := .number (toString n)

/-- The schema of a setting that is a number. -/
def numberSchema (description : String) (default : Nat) : Value :=
  .table
    [("default", ofNatural default), ("description", .text description), ("format", .text "uint"),
      ("minimum", ofNatural 0), ("type", .text "integer")]

/-- The schema of a setting that is a truth value. -/
def boolSchema (description : String) (default : Bool) : Value :=
  .table
    [("default", .bool default), ("description", .text description), ("type", .text "boolean")]

/-- The schema of a setting that is a set of texts and may be absent. -/
def textSetSchema (description : String) : Value :=
  .table
    [("description", .text description), ("items", .table [("type", .text "string")]),
      ("type", .list [.text "array", .text "null"]), ("uniqueItems", .bool true)]

/-- The schema of the settings. -/
def schema : Value :=
  let d : Config := {}
  .table
    [("$schema", .text "https://json-schema.org/draft/2020-12/schema"),
      ("description", .text "Settings consumed by the engine and the printer"),
      ("properties", .table
        [("applyFixes", boolSchema "Apply fixes instead of only describing them" d.applyFixes),
          ("enabledCategories", textSetSchema "Categories to report; all categories when absent"),
          ("fixIterationCap",
            numberSchema "Maximum number of fix passes over one tree" d.fixIterationCap),
          ("indentWidth", numberSchema "Spaces per indentation level" d.indentWidth),
          ("lineWidth", numberSchema "Maximum line width before a group breaks" d.lineWidth),
          ("maxDepth", numberSchema "Maximum nesting depth before a tree is rejected" d.maxDepth),
          ("useTabs", boolSchema "Indent with tabs instead of spaces" d.useTabs)]),
      ("title", .text "EngineConfig"), ("type", .text "object")]

end TreeLint.Config
