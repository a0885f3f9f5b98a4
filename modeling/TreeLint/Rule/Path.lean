import TreeLint.Diagnostic.Collector
import TreeLint.Edit.Queue

namespace TreeLint

/-!
# Paths and grafts

A rule sees a node together with the nodes that enclose it.

* `Step` is one node of the way down: as the pass sees it now, and as the pass found it.
* `Path` is a step with the steps above it, nearest first.
* `Graft` is a node meant to take the place of another. Trees are values, so a node placed below
  itself is an ordinary finite tree; a graft therefore lists the places (`loops`) where it holds an
  enclosing node itself, not a copy of it, and the places (`written`) where it holds a node that a
  rule writes out, which is the same node wherever it is put. The walk refuses a tree with a node
  below itself when it gets there.
-/

/-- The place where a node is written out: the rule, and the numbers that lead to the node in it,
    innermost one first. -/
structure Mark where
  rule : String
  address : List Nat
  deriving DecidableEq

/-- The place of a child of a node that is written out. -/
def Mark.child (m : Mark) (index : Nat) : Mark := { m with address := index :: m.address }

/-- A node meant to take the place of another. -/
structure Graft where
  node : Node
  /-- Child indices that lead to the places inside `node` that hold an enclosing node itself. -/
  loops : List (List Nat)
  /-- Child indices that lead to the places inside `node` that hold a node as it is written out, with
      the place of that. -/
  written : List (List Nat × Mark)

namespace Graft

/-- A node without loops. -/
def ofNode (node : Node) : Graft := ⟨node, [], []⟩

/-- A node that is written out. -/
def ofWritten (mark : Mark) (node : Node) : Graft := ⟨node, [], [([], mark)]⟩

/-- Where the node is written out. -/
def mark? (g : Graft) : Option Mark := g.written.lookup []

/-- The graft at a child, given the index of the child. -/
def child (g : Graft) (index : Nat) (c : Node) : Graft where
  node := c
  loops := g.loops.filterMap fun
    | [] => none
    | i :: rest => if i = index then some rest else none
  written := g.written.filterMap fun
    | ([], mark) => some ([], mark.child index)
    | (i :: rest, mark) => if i = index then some (rest, mark) else none

/-- The children as grafts. -/
def children (g : Graft) : List Graft := g.node.children.mapIdx g.child

/-- The node with the given payload, span and children, itself new. -/
def build (payload : Payload) (span : Span) (children : List Graft) : Graft where
  node := ⟨payload, span, children.map (·.node)⟩
  loops := (children.mapIdx fun i c => c.loops.map (i :: ·)).flatten
  written := (children.mapIdx fun i c => c.written.map fun w => (i :: w.1, w.2)).flatten

end Graft

/-- A node on the way down from the root. -/
structure Step where
  /-- The node as this pass sees it, with the edits made so far. -/
  graft : Graft
  /-- The node as this pass found it. -/
  found : Node
  location : Location

/-- The graft itself is one of the nodes that enclose it, which are those of the steps. -/
def Graft.isLoop (g : Graft) (above : List Step) : Bool :=
  g.loops.contains [] || (g.mark?.isSome && above.any (·.graft.mark? = g.mark?))

/-- A node and the nodes that enclose it, nearest first. -/
structure Path where
  here : Step
  above : List Step

namespace Path

/-- The path of a node that nothing encloses. -/
def ofNode (node : Node) (location : Location) : Path := ⟨⟨Graft.ofNode node, node, location⟩, []⟩

/-- The node as this pass sees it. -/
def node (p : Path) : Node := p.here.graft.node

def kind (p : Path) : Kind := p.node.kind

def location (p : Path) : Location := p.here.location

/-- The paths of the steps, each with the steps after it. -/
def ofSteps : List Step → List Path
  | [] => []
  | s :: rest => ⟨s, rest⟩ :: ofSteps rest

/-- The paths of the enclosing nodes, nearest first. -/
def ancestors (p : Path) : List Path := ofSteps p.above

/-- The path of the nearest enclosing node. -/
def parent? (p : Path) : Option Path := p.ancestors.head?

/-- The kind of the nearest enclosing node. -/
def parentKind? (p : Path) : Option Kind := p.parent?.map kind

/-- Where a diagnostic about the node points. -/
def sourceLocation (p : Path) : SourceLocation := ⟨p.node.span, p.location⟩

/-- The node itself, for use inside a replacement of a node below it. -/
def enclosing (p : Path) : Graft := { p.here.graft with loops := [] :: p.here.graft.loops }

/-- A description of the path: the kind of the node and its location. -/
def describe (p : Path) : String :=
  "NodePath \x7b kind: " ++ p.kind.title ++ ", location: NodeLocation([" ++
    ", ".intercalate (p.location.indices.map fun i => toString i.toNat) ++ "]) \x7d"

end Path

end TreeLint
