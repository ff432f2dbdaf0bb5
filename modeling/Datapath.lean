import Datapath.Address.Access
import Datapath.Address.Base
import Datapath.Address.Feeds
import Datapath.Address.Operations
import Datapath.Address.Underlying
import Datapath.Address.Written
import Datapath.Analysis
import Datapath.Fault
import Datapath.Graph.Basic
import Datapath.Graph.Buckets
import Datapath.Graph.Construction
import Datapath.Graph.Label
import Datapath.Graph.Node
import Datapath.Graph.Verdict
import Datapath.Id
import Datapath.Instruction.Basic
import Datapath.Instruction.Opcode
import Datapath.Instruction.Predicate
import Datapath.Kernel.Basic
import Datapath.Kernel.Builder
import Datapath.Kernel.Script
import Datapath.Metrics.Basic
import Datapath.Metrics.Count
import Datapath.Metrics.Depth
import Datapath.Metrics.Report
import Datapath.Proofs.Acceptance
import Datapath.Proofs.Address.Accessing
import Datapath.Proofs.Address.Agreement
import Datapath.Proofs.Address.Answers
import Datapath.Proofs.Address.Feeding
import Datapath.Proofs.Address.Flattening
import Datapath.Proofs.Address.Origins
import Datapath.Proofs.Address.Retracing
import Datapath.Proofs.Address.Roots
import Datapath.Proofs.Address.Tracing
import Datapath.Proofs.Graph.Chains
import Datapath.Proofs.Graph.Contents
import Datapath.Proofs.Graph.Control
import Datapath.Proofs.Graph.Dependency
import Datapath.Proofs.Graph.Direction
import Datapath.Proofs.Graph.Guarding
import Datapath.Proofs.Graph.InRange
import Datapath.Proofs.Graph.Indices
import Datapath.Proofs.Graph.Labels
import Datapath.Proofs.Graph.Outputs
import Datapath.Proofs.Graph.Placement
import Datapath.Proofs.Graph.Recorded
import Datapath.Proofs.Graph.Refusals
import Datapath.Proofs.Graph.Registry
import Datapath.Proofs.Graph.Strict
import Datapath.Proofs.Graph.Sweep
import Datapath.Proofs.Graph.Unsupported
import Datapath.Proofs.Graph.Verdict
import Datapath.Proofs.Graph.Verifying
import Datapath.Proofs.InRange
import Datapath.Proofs.Kernel.Consistent
import Datapath.Proofs.Kernel.Growth
import Datapath.Proofs.Kernel.Rejected
import Datapath.Proofs.Kernel.Typing
import Datapath.Proofs.Kernel.WellFormed
import Datapath.Proofs.Metrics.Count
import Datapath.Proofs.Metrics.CriticalPath
import Datapath.Proofs.Metrics.Flow
import Datapath.Proofs.Run
import Datapath.Proofs.Safety
import Datapath.Proofs.Width.Applied
import Datapath.Proofs.Width.Cap
import Datapath.Proofs.Width.Closure
import Datapath.Proofs.Width.Domain
import Datapath.Proofs.Width.Driven
import Datapath.Proofs.Width.Faults
import Datapath.Proofs.Width.Fixpoint
import Datapath.Proofs.Width.Growth
import Datapath.Proofs.Width.Handling
import Datapath.Proofs.Width.Height
import Datapath.Proofs.Width.Least
import Datapath.Proofs.Width.Memory
import Datapath.Proofs.Width.Natural
import Datapath.Proofs.Width.Order
import Datapath.Proofs.Width.Refusals
import Datapath.Proofs.Width.Rules
import Datapath.Proofs.Width.Seeds
import Datapath.Proofs.Width.Settling
import Datapath.Proofs.Width.Succeeding
import Datapath.Proofs.Written.Formula
import Datapath.Proofs.Written.Lexing
import Datapath.Proofs.Written.Mentioned
import Datapath.Proofs.Written.Reading
import Datapath.Table
import Datapath.Text.Quoted
import Datapath.Text.Split
import Datapath.Ty
import Datapath.Width.Inference
import Datapath.Width.Lattice
import Datapath.Width.Override
import Datapath.Width.Rule
import Datapath.Width.Widths
import Datapath.Proofs.Text.Splitting
import Datapath.Proofs.Width.Constant
import Datapath.Proofs.Written.Types
import Datapath.Proofs.Override.Line
import Datapath.Proofs.Override.LastLine
