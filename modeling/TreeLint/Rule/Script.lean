import TreeLint.Rule.Basic
import TreeLint.Rule.Condition
import TreeLint.Rule.NodeChange

namespace TreeLint

/-!
# Rules written as data

A `ScriptedRule` is a rule whose callbacks are lists of instructions.

* An `Instruction` has an `Act` and the conditions under which it is carried out.
* `Instruction.perform` carries it out. A callback is the instructions in turn: each sees what those
  before it collected, and the last act that applies says how to go on with the node.
* `ScriptedRule.traced` lists what had been collected whenever a script came to a `trace`.
-/

/-- What an instruction does. -/
inductive Act where
  /-- Report the node. -/
  | report
  /-- Report the node with a replacement; the patch is said to replace `old`, or the node. -/
  | fix (change : NodeChange) (old : Option Node)
  /-- Report that the node should go. -/
  | removal
  /-- Go on with another node. -/
  | replace (change : NodeChange)
  /-- Queue a replacement of the node. -/
  | queue (change : NodeChange)
  /-- Queue the removal of the node. -/
  | remove
  /-- Queue a replacement of an enclosing node, `up` levels above the parent. -/
  | queueAbove (up : Nat) (change : NodeChange)
  /-- Queue the removal of an enclosing node, `up` levels above the parent. -/
  | removeAbove (up : Nat)
  /-- Cancel the run. -/
  | cancel
  /-- Note what has been collected. -/
  | trace

/-- An act and when to carry it out. -/
structure Instruction where
  act : Act
  conditions : List Condition
  /-- What a report of the act says. -/
  category : Category
  message : MessageId

/-- The instructions of a callback. -/
abbrev Script := List Instruction

/-- A callback under way. -/
structure ScriptState where
  /-- What has been collected, the findings of the callback included. -/
  collector : Collector
  /-- What the callback has asked for. -/
  reaction : Reaction
  /-- What had been collected at each `trace`. -/
  traced : List Collector

namespace ScriptState

/-- A callback that has done nothing. -/
def start (c : Collector) : ScriptState := ⟨c, .nothing, []⟩

/-- Report a finding. -/
def find (g : ScriptState) (f : Finding) : ScriptState :=
  { g with
    collector := g.collector.add f
    reaction := { g.reaction with findings := g.reaction.findings ++ [f] } }

/-- Ask for an edit. -/
def ask (g : ScriptState) (r : EditRequest) : ScriptState :=
  { g with reaction := { g.reaction with edits := g.reaction.edits ++ [r] } }

/-- Go on with the node in the given way. -/
def goOn (g : ScriptState) (t : Transform) : ScriptState :=
  { g with reaction := { g.reaction with transform := t } }

end ScriptState

namespace Instruction

/-- Carry out the act. An act that does not apply changes nothing. `mark` is the place of the
    instruction; the nodes that it writes out are numbered. -/
def carryOut (mark : Mark) (p : Path) (g : ScriptState) (i : Instruction) : ScriptState :=
  let changeMark := mark.child 0
  let finding (fix : Fix) : Finding := ⟨i.category, p.sourceLocation, i.message, fix⟩
  let applies := g.collector.applies i.category
  let changed : Option ScriptState :=
    match i.act with
    | .report => some ((g.find (finding .none)).goOn .reported)
    | .fix change old => (change.result? changeMark p).map fun fixed =>
      let kept := (old.map (Graft.ofWritten (mark.child 1))).getD p.here.graft
      (g.find (finding (.replacement ⟨kept.node, fixed.node⟩))).goOn
        (.after p (if applies then fixed else kept))
    | .removal =>
      let g := g.find (finding .removal)
      some ((if applies then g.ask (.remove 0) else g).goOn .reported)
    | .replace change => (change.result? changeMark p).map fun node => g.goOn (.replace node)
    | .queue change => (change.result? changeMark p).map fun node =>
      (g.ask (.replace 0 node)).goOn .unchanged
    | .remove => some ((g.ask (.remove 0)).goOn .unchanged)
    | .queueAbove up change => do
      let above ← p.ancestors[up]?
      let node ← change.result? changeMark above
      return (g.ask (.replace (up + 1) node)).goOn .unchanged
    | .removeAbove up => do
      let _ ← p.ancestors[up]?
      return (g.ask (.remove (up + 1))).goOn .unchanged
    | .cancel =>
      some { g with reaction := { g.reaction with cancels := true, transform := .unchanged } }
    | .trace => some ({ g with traced := g.traced ++ [g.collector] }.goOn .unchanged)
  changed.getD g

/-- Carry out the act if all conditions hold. -/
def perform (mark : Mark) (p : Path) (g : ScriptState) (i : Instruction) : ScriptState :=
  if i.conditions.all (·.holds p g.collector) then i.carryOut mark p g else g

end Instruction

namespace Script

/-- Carry out the instructions in turn. `mark` is the place of the script. -/
def run (s : Script) (mark : Mark) (p : Path) (c : Collector) : ScriptState :=
  s.zipIdx.foldl (fun g (i, index) => i.perform (mark.child index) p g) (.start c)

/-- The callback that a script describes. -/
def callback (s : Script) (mark : Mark) : Callback := fun p c => (s.run mark p c).reaction

/-- What had been collected whenever the script came to a `trace`. -/
def traced (s : Script) (mark : Mark) (p : Path) (c : Collector) : List Collector :=
  (s.run mark p c).traced

/-- The script has a `trace`. -/
def hasTrace (s : Script) : Bool :=
  s.any fun i =>
    match i.act with
    | .trace => true
    | _ => false

end Script

/-- A rule whose callbacks are scripts. -/
structure ScriptedRule where
  name : String
  category : Category
  kinds : List Kind
  enter : Option Script
  exit : Option Script

namespace ScriptedRule

/-- The script of a phase. -/
def script? (r : ScriptedRule) : Phase → Option Script
  | .enter => r.enter
  | .exit => r.exit

/-- The place of the script of a phase. -/
def mark (r : ScriptedRule) : Phase → Mark
  | .enter => ⟨r.name, [0]⟩
  | .exit => ⟨r.name, [1]⟩

/-- What had been collected whenever the script of the phase came to a `trace`. -/
def traced (r : ScriptedRule) (phase : Phase) (p : Path) (c : Collector) : List Collector :=
  match r.script? phase with
  | some s => if s.hasTrace then s.traced (r.mark phase) p c else []
  | none => []

/-- The rule that the scripts describe. -/
def toRule (r : ScriptedRule) : Rule where
  name := r.name
  category := r.category
  accepts k := r.kinds.contains k
  enter := r.enter.map (·.callback (r.mark .enter))
  exit := r.exit.map (·.callback (r.mark .exit))

end ScriptedRule

end TreeLint
