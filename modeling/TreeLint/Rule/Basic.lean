import TreeLint.Rule.Path
import TreeLint.Text.Quoted

namespace TreeLint

/-!
# Rules

A rule is plain data: a name, a category, the kinds that it looks at, and up to two callbacks.

* A `Callback` is a function of the path and of what has been collected so far. It does nothing
  itself: its `Reaction` says what to report, which edits to queue, how to go on with the node and
  whether to cancel the run.
* `EditRequest` addresses the node itself or one that encloses it. A callback can reach no other
  node.
-/

/-- What a callback wants done with its node. -/
inductive Transform where
  /-- Nothing. -/
  | unchanged
  /-- Something was reported and the node stays as it is. -/
  | reported
  /-- Go on with this node instead. -/
  | replace (graft : Graft)

/-- An edit that a callback asks for, `levels` steps above its node. -/
inductive EditRequest where
  | replace (levels : Nat) (graft : Graft)
  | remove (levels : Nat)

namespace EditRequest

/-- How far above the node of the callback the edit applies. -/
def levels : EditRequest → Nat
  | replace n _ => n
  | remove n => n

/-- What the edit does. -/
def action : EditRequest → EditAction
  | replace _ graft => .replace graft.node
  | remove _ => .remove

end EditRequest

/-- All that a callback asks for. -/
structure Reaction where
  findings : List Finding := []
  edits : List EditRequest := []
  transform : Transform := .unchanged
  /-- Cancel the run. -/
  cancels : Bool := false

/-- A function that looks at a node and says what to do. -/
abbrev Callback := Path → Collector → Reaction

/-- The transform of a callback that reported a patch and got `graft` to go on with. -/
def Transform.after (p : Path) (graft : Graft) : Transform :=
  if graft.node == p.node then .reported else .replace graft

namespace Reaction

/-- Nothing to report and nothing to do. -/
def nothing : Reaction := {}

/-- Report the node, without a fix. -/
def report (p : Path) (category : Category) (message : MessageId) : Reaction where
  findings := [⟨category, p.sourceLocation, message, .none⟩]
  transform := .reported

/-- Report the node with a replacement, and make it if fixes are applied. -/
def repair (p : Path) (c : Collector) (category : Category) (message : MessageId) (fixed : Node) :
    Reaction where
  findings := [⟨category, p.sourceLocation, message, .replacement ⟨p.node, fixed⟩⟩]
  transform := Transform.after p (Graft.ofNode (c.choose category ⟨p.node, fixed⟩))

/-- Report that the node should go, and remove it if fixes are applied. -/
def discard (p : Path) (c : Collector) (category : Category) (message : MessageId) :
    Reaction where
  findings := [⟨category, p.sourceLocation, message, .removal⟩]
  edits := if c.applies category then [.remove 0] else []
  transform := .reported

end Reaction

/-- The two times at which a rule is asked about a node. -/
inductive Phase where
  /-- Before the children. -/
  | enter
  /-- After the children. -/
  | exit
  deriving DecidableEq

/-- The stable name of a phase. -/
def Phase.name : Phase → String
  | .enter => "enter"
  | .exit => "exit"

/-- A rule. -/
structure Rule where
  name : String
  category : Category
  /-- The kinds that the rule looks at. -/
  accepts : Kind → Bool
  enter : Option Callback
  exit : Option Callback

namespace Rule

/-- The callback of a phase. -/
def callback? (r : Rule) : Phase → Option Callback
  | .enter => r.enter
  | .exit => r.exit

/-- A description of the rule. -/
def describe (r : Rule) : String :=
  "Rule \x7b name: " ++ Text.quoted r.name ++ ", category: Category(" ++
    Text.quoted r.category.id ++ "), enter: " ++ toString r.enter.isSome ++ ", exit: " ++
    toString r.exit.isSome ++ " \x7d"

end Rule

end TreeLint
