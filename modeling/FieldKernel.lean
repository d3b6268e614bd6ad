import FieldKernel.Cli.Arguments
import FieldKernel.Cli.Assignment
import FieldKernel.Cli.Command
import FieldKernel.Cli.Console
import FieldKernel.Cli.FileTree
import FieldKernel.Cli.Files
import FieldKernel.Cli.Notice
import FieldKernel.Cli.Path
import FieldKernel.Decimal.Basic
import FieldKernel.Decimal.Binary64
import FieldKernel.Decimal.Digits
import FieldKernel.Decimal.Layout
import FieldKernel.Digest.Basic
import FieldKernel.Digest.Blake3
import FieldKernel.Digest.ContentHash
import FieldKernel.Domain
import FieldKernel.Error
import FieldKernel.Execution.Launch
import FieldKernel.Execution.Machine
import FieldKernel.Field.Basic
import FieldKernel.Field.Edit
import FieldKernel.Field.Element
import FieldKernel.Field.Shape
import FieldKernel.Field.Table
import FieldKernel.Kernel.Access
import FieldKernel.Kernel.Basic
import FieldKernel.Kernel.Binding
import FieldKernel.Kernel.Identity
import FieldKernel.Kernel.Recording
import FieldKernel.Kernel.Scope
import FieldKernel.Kernel.Text
import FieldKernel.Main
import FieldKernel.NameMap
import FieldKernel.Operator
import FieldKernel.Proofs.Decimal.Shortest
import FieldKernel.Proofs.Domain
import FieldKernel.Proofs.Execution.Discretion
import FieldKernel.Proofs.Execution.Effect
import FieldKernel.Proofs.Execution.Fault
import FieldKernel.Proofs.Execution.Footprint
import FieldKernel.Proofs.Execution.Launch
import FieldKernel.Proofs.Execution.Orders
import FieldKernel.Proofs.Execution.Renaming
import FieldKernel.Proofs.Execution.Sharing
import FieldKernel.Proofs.Execution.Simulation
import FieldKernel.Proofs.Execution.Step
import FieldKernel.Proofs.Execution.Stores
import FieldKernel.Proofs.Execution.Touches
import FieldKernel.Proofs.Execution.Verdict
import FieldKernel.Proofs.Field.Addressing
import FieldKernel.Proofs.Field.Advance
import FieldKernel.Proofs.Field.Agreement
import FieldKernel.Proofs.Field.Altered
import FieldKernel.Proofs.Field.Location
import FieldKernel.Proofs.Field.Sized
import FieldKernel.Proofs.Field.Slots
import FieldKernel.Proofs.Field.Table
import FieldKernel.Proofs.Kernel.Access
import FieldKernel.Proofs.Kernel.Binding
import FieldKernel.Proofs.Kernel.Fusion
import FieldKernel.Proofs.Kernel.Identification
import FieldKernel.Proofs.Kernel.Identity
import FieldKernel.Proofs.Kernel.Numbering
import FieldKernel.Proofs.Kernel.Recording
import FieldKernel.Proofs.Kernel.Scope
import FieldKernel.Proofs.Kernel.Text
import FieldKernel.Proofs.Kernel.Visibility
import FieldKernel.Proofs.NameMap
import FieldKernel.Proofs.Outcome
import FieldKernel.Proofs.Reverse.Acceptance
import FieldKernel.Proofs.Reverse.Activity
import FieldKernel.Proofs.Reverse.Adjoint
import FieldKernel.Proofs.Reverse.Binding
import FieldKernel.Proofs.Reverse.Closure
import FieldKernel.Proofs.Reverse.Cone
import FieldKernel.Proofs.Reverse.Factor
import FieldKernel.Proofs.Reverse.Fits
import FieldKernel.Proofs.Reverse.Flow
import FieldKernel.Proofs.Reverse.Independence
import FieldKernel.Proofs.Reverse.Numbering
import FieldKernel.Proofs.Reverse.Pass
import FieldKernel.Proofs.Reverse.Progress
import FieldKernel.Proofs.Reverse.Recompute
import FieldKernel.Proofs.Reverse.Recurrence
import FieldKernel.Proofs.Reverse.Refinement
import FieldKernel.Proofs.Reverse.Renaming
import FieldKernel.Proofs.Reverse.Rule
import FieldKernel.Proofs.Reverse.Tangent
import FieldKernel.Proofs.Reverse.Tape
import FieldKernel.Proofs.Reverse.Touched
import FieldKernel.Proofs.Scalar.Doubles
import FieldKernel.Proofs.Scalar.Exact
import FieldKernel.Proofs.Session.Accounting
import FieldKernel.Proofs.Session.Caches
import FieldKernel.Proofs.Session.Deferred
import FieldKernel.Proofs.Session.Eager
import FieldKernel.Proofs.Session.Exchange
import FieldKernel.Proofs.Session.Failure
import FieldKernel.Proofs.Session.Filing
import FieldKernel.Proofs.Session.History
import FieldKernel.Proofs.Session.Kept
import FieldKernel.Proofs.Session.Moves
import FieldKernel.Proofs.Session.Obtained
import FieldKernel.Proofs.Session.Registry
import FieldKernel.Proofs.Session.Storage
import FieldKernel.Proofs.Session.Tables
import FieldKernel.Proofs.Settings.Comments
import FieldKernel.Proofs.Source.Acceptance
import FieldKernel.Proofs.Source.Cutting
import FieldKernel.Proofs.Source.Figures
import FieldKernel.Proofs.Source.Grammar
import FieldKernel.Proofs.Source.Layout
import FieldKernel.Proofs.Source.Literals
import FieldKernel.Proofs.Source.Onward
import FieldKernel.Proofs.Source.Phrases
import FieldKernel.Proofs.Source.Pieces
import FieldKernel.Proofs.Source.Recovery
import FieldKernel.Proofs.Source.RoundTrip
import FieldKernel.Proofs.Source.Strays
import FieldKernel.Reverse.Activity
import FieldKernel.Reverse.Basic
import FieldKernel.Reverse.Cone
import FieldKernel.Scalar.Basic
import FieldKernel.Scalar.Double
import FieldKernel.Scalar.Reader
import FieldKernel.Session.Basic
import FieldKernel.Session.Derivations
import FieldKernel.Session.Request
import FieldKernel.Session.Schedule
import FieldKernel.Settings.Basic
import FieldKernel.Settings.Reader
import FieldKernel.Source.Issue
import FieldKernel.Source.Lexeme
import FieldKernel.Source.Piece
import FieldKernel.Source.Program
import FieldKernel.Source.Reader
import FieldKernel.Source.Scan
import FieldKernel.Source.Span
import FieldKernel.Text.Blank
import FieldKernel.Value
