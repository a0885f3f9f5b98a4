import TreeLint.About
import TreeLint.Config.Basic
import TreeLint.Config.Decode
import TreeLint.Config.FileTree
import TreeLint.Config.Loader
import TreeLint.Config.Schema
import TreeLint.Data.Json
import TreeLint.Data.Toml
import TreeLint.Data.Value
import TreeLint.Data.Yaml
import TreeLint.Data.Yaml.Cursor
import TreeLint.Data.Yaml.Document
import TreeLint.Data.Yaml.Property
import TreeLint.Data.Yaml.Scalar
import TreeLint.Data.Yaml.Token
import TreeLint.Diagnostic.Basic
import TreeLint.Diagnostic.Catalog
import TreeLint.Diagnostic.Collector
import TreeLint.Diagnostic.Report
import TreeLint.Diagnostic.Suppression
import TreeLint.Diff
import TreeLint.Edit.Application
import TreeLint.Edit.Queue
import TreeLint.Edit.Resolution
import TreeLint.Engine
import TreeLint.Error
import TreeLint.Layout.Checked
import TreeLint.Layout.Document
import TreeLint.Layout.Formatter
import TreeLint.Layout.Printer
import TreeLint.Layout.Tree
import TreeLint.Proofs.Addressing
import TreeLint.Proofs.Application
import TreeLint.Proofs.Authorship
import TreeLint.Proofs.BareWalk
import TreeLint.Proofs.Batch
import TreeLint.Proofs.BuiltinPass
import TreeLint.Proofs.BuiltinRules
import TreeLint.Proofs.Cancellation
import TreeLint.Proofs.Collector
import TreeLint.Proofs.Composition
import TreeLint.Proofs.Concealment
import TreeLint.Proofs.Convergence
import TreeLint.Proofs.Directive
import TreeLint.Proofs.DirectiveText
import TreeLint.Proofs.Document
import TreeLint.Proofs.DryRun
import TreeLint.Proofs.EditQueue
import TreeLint.Proofs.Enablement
import TreeLint.Proofs.Erasure
import TreeLint.Proofs.FitTest
import TreeLint.Proofs.FixLoop
import TreeLint.Proofs.FixStatus
import TreeLint.Proofs.FixedPoint
import TreeLint.Proofs.FreshPass
import TreeLint.Proofs.GroupLayout
import TreeLint.Proofs.Ink
import TreeLint.Proofs.LineWidth
import TreeLint.Proofs.Lines
import TreeLint.Proofs.Locality
import TreeLint.Proofs.Location
import TreeLint.Proofs.Lockstep
import TreeLint.Proofs.Machine
import TreeLint.Proofs.MachineWords
import TreeLint.Proofs.Node
import TreeLint.Proofs.NormalForm
import TreeLint.Proofs.Overflow
import TreeLint.Proofs.PassView
import TreeLint.Proofs.Places
import TreeLint.Proofs.Pointing
import TreeLint.Proofs.QueueHistory
import TreeLint.Proofs.QueueOrder
import TreeLint.Proofs.Quoting
import TreeLint.Proofs.Reaction
import TreeLint.Proofs.Reapplication
import TreeLint.Proofs.Recency
import TreeLint.Proofs.Registration
import TreeLint.Proofs.Rejection
import TreeLint.Proofs.Remark
import TreeLint.Proofs.Reporter
import TreeLint.Proofs.Resolution
import TreeLint.Proofs.Room
import TreeLint.Proofs.RunRecord
import TreeLint.Proofs.Scope
import TreeLint.Proofs.Sight
import TreeLint.Proofs.Spacing
import TreeLint.Proofs.SpanIndependence
import TreeLint.Proofs.Strokes
import TreeLint.Proofs.Substitution
import TreeLint.Proofs.SubtreeEdits
import TreeLint.Proofs.Suggestions
import TreeLint.Proofs.Tandem
import TreeLint.Proofs.Tour
import TreeLint.Proofs.Traversal
import TreeLint.Rule.Basic
import TreeLint.Rule.Builtin
import TreeLint.Rule.Condition
import TreeLint.Rule.NodeChange
import TreeLint.Rule.Path
import TreeLint.Rule.Registry
import TreeLint.Rule.Script
import TreeLint.Rule.Traversal
import TreeLint.Text.Blank
import TreeLint.Text.Invisible
import TreeLint.Text.Quoted
import TreeLint.Text.Width
import TreeLint.Tree.Kind
import TreeLint.Tree.Location
import TreeLint.Tree.Node
