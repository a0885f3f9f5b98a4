import TreeLint.Diagnostic.Suppression

namespace TreeLint

/-!
# Collecting the diagnostics of a pass

* `Finding` is what a rule has to say; `Collector.add` turns it into a diagnostic, unless its
  category is disabled, and marks it when a directive hides the category.
* Diagnostics are only ever appended.
* `Collector.applies` says whether a fix of a category is to be made now. It does not depend on
  suppression.
-/

/-- Whether fixes are made or only described. -/
inductive FixMode where
  | describeOnly
  | applyFixes
  deriving DecidableEq

/-- Something that a rule reports. -/
structure Finding where
  category : Category
  location : SourceLocation
  message : MessageId
  fix : Fix

/-- The diagnostics of one pass so far. -/
structure Collector where
  mode : FixMode
  /-- The categories to report; all of them when absent. -/
  enabled : Option (List Category)
  diagnostics : List Diagnostic
  /-- The suppressions in force, innermost first. -/
  suppressions : List Suppression

namespace Collector

/-- A collector without diagnostics. -/
def new (mode : FixMode) (enabled : Option (List Category)) : Collector := ⟨mode, enabled, [], []⟩

/-- The category is reported. -/
def isEnabled (c : Collector) (category : Category) : Bool :=
  c.enabled.all (·.contains category)

/-- Some suppression in force hides the category. -/
def isSuppressed (c : Collector) (category : Category) : Bool :=
  c.suppressions.any (·.covers category)

/-- Fixes of the category are to be made: it is enabled and fixes are applied. -/
def applies (c : Collector) (category : Category) : Bool :=
  c.isEnabled category && c.mode = .applyFixes

/-- The node to go on with after a patch of the category has been reported. -/
def choose (c : Collector) (category : Category) (patch : Patch) : Node :=
  if c.applies category then patch.fixed else patch.old

/-- The diagnostic of a finding under the suppressions in force. -/
def diagnose (c : Collector) (f : Finding) : Diagnostic :=
  { Diagnostic.ofFix f.category f.location f.message f.fix with
    suppressed := c.isSuppressed f.category }

/-- Append the diagnostic of a finding; findings of disabled categories are dropped. -/
def add (c : Collector) (f : Finding) : Collector :=
  if c.isEnabled f.category then { c with diagnostics := c.diagnostics ++ [c.diagnose f] } else c

/-- Append the diagnostics of several findings. -/
def addAll (c : Collector) (fs : List Finding) : Collector := fs.foldl add c

/-- Put a suppression in force. -/
def suppress (c : Collector) (s : Suppression) : Collector :=
  { c with suppressions := s :: c.suppressions }

/-- Lift the suppression that was put in force last. -/
def lift (c : Collector) : Collector := { c with suppressions := c.suppressions.tail }

def size (c : Collector) : Nat := c.diagnostics.length

def isEmpty (c : Collector) : Bool := c.diagnostics.isEmpty

/-- The number of diagnostics that came with a fix. -/
def fixableCount (c : Collector) : Nat := c.diagnostics.countP (·.hasFix)

end Collector

end TreeLint
