import TreeLint.Data.Json
import TreeLint.Diagnostic.Catalog

namespace TreeLint

/-!
# Reports

A report lists the diagnostics that no directive hides.

* `Report.ofDiagnostics` makes a report, `Report.render` writes one line per entry.
* `Report.toJson` writes a report as JSON and `Report.ofJson?` reads one.

A record is read from an object, in which unknown members count for nothing and every field occurs
once, or from an array of the fields in order.
-/

/-- An entry of a report. -/
structure ReportEntry where
  category : Category
  start : UInt32
  stop : UInt32
  node : Location
  message : MessageId
  hasFix : Bool
  status : FixStatus
  deriving DecidableEq

/-- The entry of a diagnostic. -/
def ReportEntry.ofDiagnostic (d : Diagnostic) : ReportEntry where
  category := d.category
  start := d.location.span.start
  stop := d.location.span.stop
  node := d.location.node
  message := d.message
  hasFix := d.hasFix
  status := d.status

/-- Diagnostics in the order in which they were found. -/
structure Report where
  entries : List ReportEntry
  deriving DecidableEq

namespace Report

/-- The report of the diagnostics that are not suppressed. -/
def ofDiagnostics (ds : List Diagnostic) : Report :=
  ⟨(ds.filter fun d => !d.suppressed).map ReportEntry.ofDiagnostic⟩

def size (r : Report) : Nat := r.entries.length

def isEmpty (r : Report) : Bool := r.entries.isEmpty

/-- The number of entries with a fix. -/
def fixableCount (r : Report) : Nat := r.entries.countP (·.hasFix)

/-- The number of entries whose fix was made. -/
def appliedCount (r : Report) : Nat := r.entries.countP (·.status = .applied)

/-- The categories of the entries. -/
def categories (r : Report) : List Category := r.entries.map (·.category)

/-! ### Lines of text -/

/-- The line of an entry: range, category, message, and the status if there is a fix. -/
def renderEntry (c : Catalog) (e : ReportEntry) : String :=
  let label := e.status.label
  toString e.start.toNat ++ ".." ++ toString e.stop.toNat ++ " " ++ e.category.id ++ ": " ++
    c.wording e.message ++ (if label.isEmpty then "" else " [" ++ label ++ "]") ++ "\n"

/-- The lines of all entries. -/
def render (c : Catalog) (r : Report) : String := String.join (r.entries.map (renderEntry c))

/-! ### JSON -/

/-- A number as a value. -/
def ofWord (n : UInt32) : Value := .number (toString n.toNat)

/-- The value of an entry. -/
def entryValue (e : ReportEntry) : Value :=
  .table
    [("category", .text e.category.id),
      ("span", .table [("start", ofWord e.start), ("end", ofWord e.stop)]),
      ("node", .list (e.node.indices.map ofWord)),
      ("message", .text e.message.id),
      ("hasFix", .bool e.hasFix),
      ("fixStatus", .text e.status.name)]

/-- The report as JSON. -/
def toJson (r : Report) : String :=
  Json.pretty (.table [("entries", .list (r.entries.map entryValue))])

/-- The values of the named fields of a record. -/
def fields? (names : List String) : Value → Option (List Value)
  | .table members => names.mapM fun name =>
    match Value.valuesOf name members with
    | [v] => some v
    | _ => none
  | .list items => if items.length = names.length then some items else none
  | _ => none

/-- A 32-bit number. -/
def word? (v : Value) : Option UInt32 := do
  let n ← v.natural?
  if n < UInt32.size then some n.toUInt32 else none

/-- A status: its name, alone or as the only key of a table whose value is null. -/
def status? : Value → Option FixStatus
  | .text s => FixStatus.ofName? s
  | .table [(name, .null)] => FixStatus.ofName? name
  | _ => none

/-- An entry. -/
def entry? (v : Value) : Option ReportEntry := do
  let [category, span, node, message, hasFix, status] ←
    fields? ["category", "span", "node", "message", "hasFix", "fixStatus"] v | none
  let [start, stop] ← fields? ["start", "end"] span | none
  some {
    category := ⟨← category.text?⟩
    start := ← word? start
    stop := ← word? stop
    node := ⟨← (← node.list?).mapM word?⟩
    message := ⟨← message.text?⟩
    hasFix := ← hasFix.bool?
    status := ← status? status }

/-- The report that a JSON text holds. -/
def ofJson? (s : String) : Option Report := do
  let [entries] ← fields? ["entries"] (← Json.parse? s) | none
  some ⟨← (← entries.list?).mapM entry?⟩

end Report

end TreeLint
