import TreeLint.Config.Basic
import TreeLint.Edit.Application
import TreeLint.Rule.Traversal

namespace TreeLint

/-!
# The engine

The engine runs passes over a tree. When fixes are wanted it applies the edits of a pass and runs
the next pass over the new tree, until nothing changes or the limit of passes is reached.

* `Engine.runPass` makes one pass and leaves the tree alone.
* `Engine.run` lints a tree, or fixes it with `Engine.fixFrom`.
* `Engine.runBatch` runs several trees and skips those that are malformed.
* A run can be cancelled, from outside or by a callback. That is looked at between passes only.

All of these give a `Run`: the result with the state of cancellation after it and the visits of all
passes, also when the result is an error.
-/

/-- A result, with what remains known when it is an error. -/
structure Run (α : Type) where
  result : Except Error α
  /-- The run has been cancelled. -/
  cancelled : Bool
  /-- The invocations of callbacks, in order. -/
  visits : Array Visit

/-- Conditions that do not stop a run. -/
inductive Warning where
  /-- The limit of passes was reached before the tree stopped changing. -/
  | fixLimitReached (cap : Nat)
  /-- An edit lost to an edit of an enclosing node. -/
  | conflict (conflict : Conflict)
  deriving DecidableEq

/-- The wording of a warning. -/
def Warning.message : Warning → String
  | .fixLimitReached cap => "fix limit reached after " ++ toString cap ++ " passes"
  | .conflict c =>
    "edit at " ++ c.discarded.display ++ " superseded by edit at " ++ c.kept.display

/-- The result of one pass. -/
structure PassResult where
  diagnostics : List Diagnostic
  edits : EditQueue
  /-- The tree as the rules saw it at the end; absent when they removed the root. -/
  view : Option Node

/-- The result of a run. -/
structure Outcome where
  tree : Node
  /-- The diagnostics whose fixes earlier passes made, then all those of the last pass. -/
  diagnostics : List Diagnostic
  conflicts : List Conflict
  warnings : List Warning
  /-- The number of passes. -/
  iterations : Nat
  /-- The last pass left nothing to do. -/
  converged : Bool

/-- The number of diagnostics whose fixes were made. -/
def Outcome.appliedCount (o : Outcome) : Nat := o.diagnostics.countP (·.status = .applied)

/-- Rules and settings. -/
structure Engine where
  registry : Registry
  config : Config

/-- What the passes of a fixing run have produced so far. -/
structure Progress where
  tree : Node
  /-- The number of passes so far. -/
  iterations : Nat
  /-- The diagnostics whose fixes were made before the last pass. -/
  history : List Diagnostic
  /-- The diagnostics of the last pass. -/
  last : List Diagnostic
  conflicts : List Conflict
  warnings : List Warning

namespace Progress

/-- No pass has been made. -/
def start (tree : Node) : Progress := ⟨tree, 0, [], [], [], []⟩

/-- The diagnostics that are kept when a further pass begins. -/
def carried (p : Progress) : List Diagnostic :=
  p.history ++ p.last.filter (·.status = .applied)

/-- The outcome of a run that ends here. -/
def finish (p : Progress) (converged : Bool) (cap : Nat) : Outcome where
  tree := p.tree
  diagnostics := p.history ++ p.last
  conflicts := p.conflicts
  warnings := if converged then p.warnings else p.warnings ++ [.fixLimitReached cap]
  iterations := p.iterations
  converged := converged

end Progress

namespace Engine

/-- An engine with valid settings. -/
def new (registry : Registry) (config : Config) : Except Error Engine :=
  config.validate.map fun config => ⟨registry, config⟩

/-- Whether fixes are made. -/
def mode (e : Engine) : FixMode := if e.config.applyFixes then .applyFixes else .describeOnly

/-- The collector that a pass begins with. -/
def collector (e : Engine) : Collector := Collector.new e.mode e.config.categories

/-- One pass of all rules over a tree, whether or not the run is cancelled. -/
def runPass (e : Engine) (cancelled : Bool) (tree : Node) : Run PassResult :=
  let (result, s) := traverse e.registry e.config.maxDepth tree e.collector
  { result := result.map fun view => ⟨s.collector.diagnostics, s.edits, view⟩
    cancelled := cancelled || s.cancelled
    visits := s.visits }

/-- What the edits of a pass come to. -/
inductive Verdict where
  /-- There is nothing more to do. -/
  | settled (progress : Progress)
  /-- The tree has changed. -/
  | changed (progress : Progress)

/-- Take the result of a pass into account. -/
def absorb (p : Progress) (pass : PassResult) : Verdict :=
  if pass.edits.isEmpty then
    .settled { p with
      iterations := p.iterations + 1
      history := p.carried
      last := pass.diagnostics }
  else
    let applied := applyEdits p.tree pass.edits
    let next : Progress := { p with
      iterations := p.iterations + 1
      history := p.carried
      last := pass.diagnostics.map fun d => { d with status := applied.statusOf d }
      conflicts := p.conflicts ++ applied.conflicts
      warnings := p.warnings ++ applied.conflicts.map .conflict }
    if !applied.changed || applied.tree == p.tree then .settled next
    else .changed { next with tree := applied.tree }

/-- Make up to `passes` further passes. -/
def fixFrom (e : Engine) :
    (passes : Nat) → (cancelled : Bool) → Array Visit → Progress → Run Outcome
  | 0, cancelled, visits, p => ⟨.ok (p.finish false e.config.fixIterationCap), cancelled, visits⟩
  | passes + 1, cancelled, visits, p =>
    if cancelled then ⟨.error (.cancelled (p.iterations + 1)), cancelled, visits⟩
    else
      let run := e.runPass cancelled p.tree
      let visits := visits ++ run.visits
      match run.result with
      | .error err => ⟨.error err, run.cancelled, visits⟩
      | .ok pass =>
        match absorb p pass with
        | .settled p =>
          ⟨.ok (p.finish true e.config.fixIterationCap), run.cancelled, visits⟩
        | .changed p => fixFrom e passes run.cancelled visits p

/-- Describe the tree without changing it, in one pass. -/
def describe (e : Engine) (cancelled : Bool) (tree : Node) : Run Outcome :=
  if cancelled then ⟨.error (.cancelled 1), cancelled, #[]⟩
  else
    let run := e.runPass cancelled tree
    { run with result := run.result.map fun pass => ⟨tree, pass.diagnostics, [], [], 1, true⟩ }

/-- Lint a tree, and fix it when the settings say so. -/
def run (e : Engine) (cancelled : Bool) (tree : Node) : Run Outcome :=
  if e.config.applyFixes then
    e.fixFrom e.config.fixIterationCap cancelled #[] (Progress.start tree)
  else e.describe cancelled tree

/-- Run each tree; the results keep their order. -/
def runEach (e : Engine) : (cancelled : Bool) → List Node → Run (List (Except Error Outcome))
  | cancelled, [] => ⟨.ok [], cancelled, #[]⟩
  | cancelled, tree :: trees =>
    let first := e.run cancelled tree
    let rest := e.runEach first.cancelled trees
    { rest with
      result := rest.result.map (first.result :: ·)
      visits := first.visits ++ rest.visits }

/-- Run independent trees. A malformed tree has no outcome; any other error, the first in the order
    of the trees, is the result of the batch. -/
def runBatch (e : Engine) (cancelled : Bool) (trees : List Node) :
    Run (List (Option Outcome)) :=
  let each := e.runEach cancelled trees
  { each with result := each.result.bind fun results => results.mapM recoverable }

end Engine

end TreeLint
