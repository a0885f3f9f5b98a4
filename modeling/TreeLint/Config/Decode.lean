import TreeLint.Config.Basic
import TreeLint.Data.Json
import TreeLint.Data.Toml
import TreeLint.Data.Yaml

namespace TreeLint

/-!
# Configurations in data files

A configuration is written as a table with the settings as keys. Keys that are no settings are
ignored, a setting that is missing has its default value, and one that is given twice is refused.

* `FileFormat` is the format of a file, told by its extension.
* `FileFormat.decode?` reads a configuration from a text of that format.
-/

/-- The formats of configuration files. -/
inductive FileFormat where
  | json
  | yaml
  | toml
  deriving DecidableEq

namespace Config

/-! ### Settings -/

/-- The value of a setting, given the values that its key has. -/
def setting? {α : Type} (read? : Value → Option α) (default : α) : List Value → Option α
  | [] => some default
  | [v] => read? v
  | _ => none

/-- A number that fits into a machine word. -/
def word? (v : Value) : Option Nat := do
  let n ← v.natural?
  if n < wordSize then some n else none

/-- The texts in increasing order, each of them once. -/
def sortedOnce (texts : List String) : List String :=
  (texts.mergeSort fun a b => decide (a ≤ b)).eraseDups

/-- A list of categories, or none. -/
def categories? (v : Value) : Option (Option (List String)) :=
  v.present?.bind fun
    | none => some none
    | some v => do
      let items ← v.list?
      let texts ← items.mapM Value.text?
      return some (sortedOnce texts)

/-- The settings in the order in which they stand in a list. -/
def keys : List String :=
  ["lineWidth", "indentWidth", "useTabs", "applyFixes", "fixIterationCap", "enabledCategories",
    "maxDepth"]

/-- The configuration in which each key has the given values. -/
def ofValues? (values : String → List Value) : Option Config := do
  let default : Config := {}
  return {
    lineWidth := ← setting? word? default.lineWidth (values "lineWidth")
    indentWidth := ← setting? word? default.indentWidth (values "indentWidth")
    useTabs := ← setting? Value.bool? default.useTabs (values "useTabs")
    applyFixes := ← setting? Value.bool? default.applyFixes (values "applyFixes")
    fixIterationCap := ← setting? word? default.fixIterationCap (values "fixIterationCap")
    enabledCategories :=
      ← setting? categories? default.enabledCategories (values "enabledCategories")
    maxDepth := ← setting? word? default.maxDepth (values "maxDepth") }

/-- The configuration that a table holds. -/
def ofFields? (fields : List (String × Value)) : Option Config :=
  ofValues? fun key => Value.valuesOf key fields

/-- The configuration that a list holds, whose items are the first settings in their order. -/
def ofItems? (items : List Value) : Option Config :=
  if items.length ≤ keys.length then ofFields? (keys.zip items) else none

end Config

namespace FileFormat

/-- The format of files with the given extension. -/
def ofExtension? (extension : String) : Option FileFormat :=
  if extension = "yaml" || extension = "yml" then some yaml
  else if extension = "json" then some json
  else if extension = "toml" then some toml
  else none

/-- Read a configuration. Only JSON may write it as a list, and only YAML may leave it empty. -/
def decode? (format : FileFormat) (text : String) : Option Config := do
  match format with
  | json =>
    match ← Json.parse? text with
    | .table fields => Config.ofFields? fields
    | .list items => Config.ofItems? items
    | _ => none
  | yaml =>
    match ← Yaml.parse? text with
    | .table fields => Config.ofFields? fields
    | .plain word _ => if word = "" then some {} else none
    | _ => none
  | toml =>
    match ← Toml.parse? text with
    | .table fields => Config.ofFields? fields
    | _ => none

end FileFormat

end TreeLint
