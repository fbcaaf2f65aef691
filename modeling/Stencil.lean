import Stencil.Binary64
import Stencil.CommandLine
import Stencil.Config.Basic
import Stencil.Config.Line
import Stencil.Config.Parser
import Stencil.Config.Reader
import Stencil.Context
import Stencil.Directive.Parser
import Stencil.Directive.Registry
import Stencil.Document.Callback
import Stencil.Document.Reader
import Stencil.Document.Source
import Stencil.Event
import Stencil.Expr.Evaluation
import Stencil.Expr.Parser
import Stencil.Expr.Signature
import Stencil.Expr.Syntax
import Stencil.Expr.Token
import Stencil.Fault
import Stencil.File.Path
import Stencil.File.System
import Stencil.File.Tree
import Stencil.Library.Basic
import Stencil.Library.Load
import Stencil.Library.Settings
import Stencil.Log
import Stencil.Main
import Stencil.Path.Basic
import Stencil.Path.Parser
import Stencil.Path.Select
import Stencil.Store
import Stencil.Stream.Basic
import Stencil.Stream.Held
import Stencil.Stream.Pull
import Stencil.Stream.Replay
import Stencil.Stream.Step
import Stencil.Stream.Tag
import Stencil.Template.Basic
import Stencil.Template.Compile
import Stencil.Template.Error
import Stencil.Template.Interpolation
import Stencil.Text.Basic
import Stencil.Value.Basic
import Stencil.Value.Parts
import Stencil.Value.Error
import Stencil.Value.Operations
import Stencil.Value.Host
import Stencil.Xml.Escape
import Stencil.Xml.Reference
import Stencil.Xml.Tag
import Stencil.Xml.Token
import Stencil.Xml.Writer
import Stencil.Proofs.Document.Forest
import Stencil.Proofs.Template.Compilation
import Stencil.Proofs.Expr.Effect
import Stencil.Proofs.Stream.Element
import Stencil.Proofs.Stream.Substitution
import Stencil.Proofs.Template.Composition
import Stencil.Proofs.Stream.Frames
import Stencil.Proofs.Stream.Scope
import Stencil.Proofs.Stream.Held
import Stencil.Proofs.Stream.Layers
import Stencil.Proofs.Stream.ScopedStep
import Stencil.Proofs.Template.Evaluation
import Stencil.Proofs.Template.Recursion
import Stencil.Proofs.Path.Selection
import Stencil.Proofs.Stream.Ahead
import Stencil.Proofs.Stream.Captured
import Stencil.Proofs.Stream.Lag
import Stencil.Proofs.Stream.Together
import Stencil.Proofs.Template.History
import Stencil.Proofs.Template.Proper
import Stencil.Proofs.Stream.Closing
import Stencil.Proofs.Stream.ClosingStep
import Stencil.Proofs.Stream.ClosingRun
import Stencil.Proofs.Template.Paired
import Stencil.Proofs.Template.Condition
import Stencil.Proofs.Xml.Pieces
import Stencil.Proofs.Xml.Reading
import Stencil.Proofs.Xml.Written
import Stencil.Proofs.Stream.Tidied
import Stencil.Proofs.Xml.Skeleton
import Stencil.Proofs.Template.Interpolated
import Stencil.Proofs.Xml.Namespaces
import Stencil.Proofs.Template.Declared
import Stencil.Proofs.Expr.Range
import Stencil.Proofs.Stream.Progress
import Stencil.Proofs.Stream.SelfContained
import Stencil.Proofs.Stream.Ending
import Stencil.Proofs.Stream.Splicing
import Stencil.Proofs.Template.Finite
import Stencil.Proofs.Stream.Failing
import Stencil.Proofs.Stream.Origin
import Stencil.Proofs.Template.Located
import Stencil.Proofs.Expr.Printed
import Stencil.Proofs.Value.Represented
import Stencil.Proofs.Template.Literal
import Stencil.Proofs.Path.Agreement
import Stencil.Proofs.Document.Reuse
import Stencil.Proofs.Document.Declarations
import Stencil.Proofs.Document.Enclosed
import Stencil.Proofs.File.Place
import Stencil.Proofs.File.System
import Stencil.Proofs.Library.Loading
import Stencil.Proofs.Library.Current
import Stencil.Proofs.Xml.ReadBack
import Stencil.Proofs.Stream.Changes
import Stencil.Proofs.Stream.Fallback
import Stencil.Proofs.Stream.Included
import Stencil.Proofs.Library.Plain
import Stencil.Proofs.Stream.Shut
import Stencil.Proofs.Template.Outline
import Stencil.Proofs.Template.Dropped
import Stencil.Proofs.Template.Inclusion
import Stencil.Proofs.Stream.Around
import Stencil.Proofs.Stream.Unused
import Stencil.Proofs.Template.Fallback
import Stencil.Proofs.Template.Merging
import Stencil.Proofs.Template.NormalForm
import Stencil.Proofs.Value.Renamed
import Stencil.Proofs.Template.Closed
import Stencil.Proofs.Expr.Embedded
import Stencil.Proofs.Stream.Embedded
import Stencil.Proofs.Stream.Called
import Stencil.Proofs.Expr.Argument
import Stencil.Proofs.Template.Isolated
import Stencil.Proofs.Context.Ownership
import Stencil.Proofs.Text.LineBreak
import Stencil.Proofs.Stream.Done
import Stencil.Proofs.Stream.WhiteSpace
import Stencil.Proofs.Stream.Computed
import Stencil.Proofs.Stream.Resumed
import Stencil.Proofs.Expr.Progression
import Stencil.Proofs.Expr.Default
import Stencil.Proofs.Expr.Arithmetic
import Stencil.Proofs.Value.Ordered
import Stencil.Proofs.Path.RoundTrip
import Stencil.Proofs.Path.Attributes
import Stencil.Proofs.Config.Written
import Stencil.Proofs.Config.Ending
import Stencil.Proofs.File.Canonical
import Stencil.Proofs.File.Beside
import Stencil.Proofs.Template.LoopTargets
import Stencil.Proofs.Template.Rearranged
import Stencil.Proofs.Template.Pending
import Stencil.Proofs.Template.ShortForm
import Stencil.Proofs.CommandLine.Encoded
import Stencil.Proofs.Expr.Offset
import Stencil.Proofs.Path.Bounds
