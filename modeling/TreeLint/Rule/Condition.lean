import TreeLint.Rule.Path

namespace TreeLint

/-!
# Conditions on a path

A `Condition` is a question about the node of a path, the nodes that enclose it and the mode of the
pass. `Condition.holds` answers it.
-/

/-- A question about a path. -/
inductive Condition where
  /-- The node is a text or a comment with this text. -/
  | value (s : String)
  /-- The node has this name. -/
  | name (s : String)
  /-- The number of children lies between the bounds. -/
  | children (min : Nat) (max : Option Nat)
  /-- The nearest enclosing node has this kind; when none is given, nothing encloses the node. -/
  | parent (kind : Option Kind)
  /-- Some enclosing node has this name. -/
  | ancestor (s : String)
  /-- The node holds a node equal to this one. -/
  | contains (node : Node)
  /-- The node lies this many levels below the root. -/
  | depth (n : Nat)
  /-- The node is the child with this index. -/
  | index (n : Nat)
  /-- Fixes are applied, or not. -/
  | applies (expected : Bool)
  | not (c : Condition)

namespace Condition

/-- The answer to the question. -/
def holds (p : Path) (c : Collector) : Condition → Bool
  | value s => p.node.value? = some s
  | name s => p.node.name? = some s
  | children min max => min ≤ p.node.children.length && max.all (p.node.children.length ≤ ·)
  | parent kind => p.parentKind? = kind
  | ancestor s => p.ancestors.any fun a => a.node.name? = some s
  | contains node => p.node.holds node
  | depth n => p.location.depth = n
  | index n => p.location.indices.getLast?.any (·.toNat = n)
  | applies expected => decide (c.mode = .applyFixes) = expected
  | not d => !d.holds p c

end Condition

end TreeLint
