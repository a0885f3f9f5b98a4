import TreeLint.Tree.Node

namespace TreeLint

/-!
# Diagnostics

A diagnostic says that something about a node should be looked at, and may come with a fix.

* `Category` and `MessageId` are opaque identifiers; wordings belong to a catalog.
* `Patch` is a proposed replacement, `Fix` the three ways in which a finding can be repaired.
* `FixStatus` tells what became of a fix, `FixStatus.label` how a report calls that.
-/

/-- The identifier of a class of diagnostics. -/
structure Category where
  id : String
  deriving DecidableEq

/-- The identifier of a message wording. -/
structure MessageId where
  id : String
  deriving DecidableEq

/-- What a diagnostic points at: a range of the source and a place in the tree. -/
structure SourceLocation where
  span : Span
  node : Location
  deriving DecidableEq

/-- A proposed replacement: `fixed` for a node that still equals `old`. -/
structure Patch where
  old : Node
  fixed : Node

/-- How a finding can be repaired. -/
inductive Fix where
  | none
  | replacement (patch : Patch)
  | removal

/-- What became of the fix of a diagnostic. -/
inductive FixStatus where
  /-- There is no fix. -/
  | none
  /-- There is a fix and it has not been applied. -/
  | available
  /-- The fix is part of the tree. -/
  | applied
  /-- The node was no longer the one that the fix was made for. -/
  | skipped
  /-- An edit of an enclosing node won. -/
  | superseded
  deriving DecidableEq, Repr

namespace FixStatus

/-- Every status. -/
def all : List FixStatus := [none, available, applied, skipped, superseded]

/-- The stable name of a status. -/
def name : FixStatus → String
  | none => "none"
  | available => "available"
  | applied => "applied"
  | skipped => "skipped"
  | superseded => "superseded"

/-- The status with the given name. -/
def ofName? (s : String) : Option FixStatus := all.find? (·.name == s)

/-- The remark of a report on a status. -/
def label : FixStatus → String
  | none => ""
  | available => "fixable"
  | applied => "fixed"
  | skipped => "fix skipped"
  | superseded => "fix superseded"

end FixStatus

/-- A reported issue. -/
structure Diagnostic where
  category : Category
  location : SourceLocation
  message : MessageId
  /-- The replacement that the fix makes; a removal has none. -/
  patch : Option Patch
  /-- A directive hides the diagnostic from reports. Its fix counts all the same. -/
  suppressed : Bool
  status : FixStatus

namespace Diagnostic

/-- The diagnostic of a finding that is not suppressed. -/
def ofFix (category : Category) (location : SourceLocation) (message : MessageId) :
    Fix → Diagnostic
  | .none => ⟨category, location, message, none, false, .none⟩
  | .replacement patch => ⟨category, location, message, some patch, false, .available⟩
  | .removal => ⟨category, location, message, none, false, .available⟩

/-- The diagnostic came with a fix, a replacement or a removal. -/
def hasFix (d : Diagnostic) : Bool := d.status ≠ .none

end Diagnostic

end TreeLint
