import TreeLint.Tree.Kind
import TreeLint.Tree.Location

namespace TreeLint

/-!
# Errors

An error aborts a pass, a run or the loading of a configuration. Conditions that do not abort
(stale fixes, conflicts, the pass limit) are values of the results instead.

* `Error` lists the causes, `Error.message` words them.
* `Error.category` groups the causes, and `Error.isRecoverable` says which of them let a batch go
  on with its other trees.
-/

/-- Why a tree cannot be walked. -/
inductive TreeFault where
  /-- A node lies deeper than the limit. -/
  | tooDeep (limit : Nat)
  /-- A node has been placed below itself. -/
  | ownAncestor
  /-- A fault that a collaborator describes in its own words. -/
  | other (reason : String)
  deriving DecidableEq

/-- The wording of a tree fault. -/
def TreeFault.message : TreeFault → String
  | .tooDeep limit => "nesting exceeds the maximum depth of " ++ toString limit
  | .ownAncestor => "node is its own ancestor"
  | .other reason => reason

/-- The causes that abort an operation. -/
inductive Error where
  /-- A rule of this name is registered already. -/
  | duplicateRule (name : String)
  /-- The tree violates a structural invariant at this location. -/
  | malformedTree (location : Location) (fault : TreeFault)
  /-- A component met a node of a kind that it does not support. -/
  | unhandledKind (kind : Kind) (component : String)
  /-- The run was cancelled before this pass. -/
  | cancelled (pass : Nat)
  /-- The configuration cannot be loaded or is not valid. -/
  | config (text : String)
  /-- A file cannot be read. -/
  | io (path text : String)
  /-- A fault of the program itself. -/
  | internal (text : String)
  deriving DecidableEq

/-- The groups of errors. -/
inductive ErrorCategory where
  | registry
  | tree
  | dispatch
  | cancelled
  | config
  | io
  | internal
  deriving DecidableEq

namespace Error

/-- The group of an error. -/
def category : Error → ErrorCategory
  | duplicateRule _ => .registry
  | malformedTree .. => .tree
  | unhandledKind .. => .dispatch
  | cancelled _ => .cancelled
  | config _ => .config
  | io .. => .io
  | internal _ => .internal

/-- A batch of trees can go on after this error. -/
def isRecoverable (e : Error) : Bool := e.category = .tree || e.category = .io

/-- The wording of an error. -/
def message : Error → String
  | duplicateRule name => "Rule '" ++ name ++ "' is already registered"
  | malformedTree location fault =>
    "Malformed tree at " ++ location.display ++ ": " ++ fault.message
  | unhandledKind kind component =>
    "Node kind '" ++ kind.name ++ "' is not handled by " ++ component
  | cancelled pass => "Run cancelled before pass " ++ toString pass
  | config text => "Configuration error: " ++ text
  | io path text => "IO error for path '" ++ path ++ "': " ++ text
  | internal text => "Internal error: " ++ text

end Error

/-- A recoverable failure becomes an absent result; any other failure stays. -/
def recoverable {α : Type} : Except Error α → Except Error (Option α)
  | .ok a => .ok (some a)
  | .error e => if e.isRecoverable then .ok none else .error e

end TreeLint
