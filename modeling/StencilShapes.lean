import StencilShapes.Coord
import StencilShapes.Point
import StencilShapes.Ty
import StencilShapes.Program.Basic
import StencilShapes.Program.Build
import StencilShapes.Program.Commit
import StencilShapes.Program.Text
import StencilShapes.Diagnostic
import StencilShapes.Extent.Basic
import StencilShapes.Extent.Table
import StencilShapes.Extent.Analysis
import StencilShapes.Domain.Inference
import StencilShapes.Domain.Certificate
import StencilShapes.Compilation.Pass
import StencilShapes.Compilation.Basic
import StencilShapes.Json.Numeral
import StencilShapes.Json.Quoted
import StencilShapes.Json.Token
import StencilShapes.Json.Basic
import StencilShapes.Json.Draft
import StencilShapes.Description.Basic
import StencilShapes.Description.Read
import StencilShapes.Description.Elaboration
import StencilShapes.Report
import StencilShapes.Digest.Sha256
import StencilShapes.Provenance
import StencilShapes.Command.Arguments
import StencilShapes.Command.Files
import StencilShapes.Command.Run
import StencilShapes.Main
import StencilShapes.Proofs.Point
import StencilShapes.Proofs.SideBySide
import StencilShapes.Proofs.Program.Coherence
import StencilShapes.Proofs.Program.Growth
import StencilShapes.Proofs.Program.Scope
import StencilShapes.Proofs.Program.Built
import StencilShapes.Proofs.Description.Steps
import StencilShapes.Proofs.Description.Elaborated
import StencilShapes.Proofs.Extent.Box
import StencilShapes.Proofs.Extent.Cover
import StencilShapes.Proofs.Domain.Frame
import StencilShapes.Proofs.Domain.Demand
import StencilShapes.Proofs.Domain.Meeting
import StencilShapes.Proofs.Domain.Visit
import StencilShapes.Proofs.Domain.Verdict
import StencilShapes.Proofs.Domain.Run
import StencilShapes.Proofs.Domain.Typing
import StencilShapes.Proofs.Domain.Chain
import StencilShapes.Proofs.Compilation.Pipeline
import StencilShapes.Proofs.Domain.Reach
import StencilShapes.Proofs.Domain.Rejection
import StencilShapes.Proofs.Compilation.Verified
import StencilShapes.Proofs.Extent.Exact
import StencilShapes.Proofs.Domain.Suffix
import StencilShapes.Proofs.Domain.Effects
import StencilShapes.Proofs.Description.Ranks
import StencilShapes.Proofs.Description.WellFormed
import StencilShapes.Proofs.Description.Names
import StencilShapes.Proofs.Description.Body
import StencilShapes.Proofs.Description.Accepted
import StencilShapes.Proofs.Program.Placement
import StencilShapes.Proofs.Program.Order
import StencilShapes.Proofs.Program.Calls
import StencilShapes.Proofs.Description.Construction
import StencilShapes.Proofs.Description.Realization
import StencilShapes.Proofs.Description.Faithful
import StencilShapes.Proofs.Description.Blocks
import StencilShapes.Proofs.Program.Shift
import StencilShapes.Proofs.Description.Modular
import StencilShapes.Proofs.Program.Between
import StencilShapes.Proofs.Extent.Modular
import StencilShapes.Proofs.Domain.Modular
import StencilShapes.Proofs.Compilation.Modular
import StencilShapes.Proofs.Domain.MixedRank
import StencilShapes.Proofs.Compilation.EmptyStores
import StencilShapes.Proofs.Description.Unroll
import StencilShapes.Proofs.Compilation.Declared
import StencilShapes.Proofs.Compilation.WriteOnce
import StencilShapes.Proofs.Domain.OnlyShapes
import StencilShapes.Proofs.Domain.OnePass
import StencilShapes.Proofs.Description.OperandKinds
import StencilShapes.Proofs.Description.Renaming
import StencilShapes.Proofs.Description.Decoding
import StencilShapes.Proofs.Json.Lexing
import StencilShapes.Proofs.Json.Reading
import StencilShapes.Proofs.Json.Variation
import StencilShapes.Proofs.Description.Swapping
import StencilShapes.Proofs.Description.Meanings
import StencilShapes.Proofs.Extent.Counterparts
import StencilShapes.Proofs.Domain.Correspondence
import StencilShapes.Proofs.Description.Lockstep
import StencilShapes.Proofs.Description.Rearranging
import StencilShapes.Proofs.Compilation.Reordering
import StencilShapes.Proofs.Compilation.Protocol
import StencilShapes.Proofs.Compilation.Rerun
import StencilShapes.Proofs.Program.Fields
import StencilShapes.Proofs.Description.Texts
import StencilShapes.Proofs.Command.Exit
import StencilShapes.Proofs.Command.Sink
import StencilShapes.Proofs.Program.Closing
import StencilShapes.Proofs.Extent.UnrollOrder
import StencilShapes.Proofs.Description.Offsets
import StencilShapes.Proofs.Domain.Growing
import StencilShapes.Proofs.Compilation.Monotone
import StencilShapes.Proofs.Program.UnitUnroll
import StencilShapes.Proofs.Description.UnitUnroll
import StencilShapes.Proofs.Extent.UnitUnroll
import StencilShapes.Proofs.Domain.UnitUnroll
import StencilShapes.Proofs.Compilation.UnitUnroll
import StencilShapes.Proofs.Extent.Folding
import StencilShapes.Proofs.Extent.Listing
import StencilShapes.Proofs.Compilation.Shapes
import StencilShapes.Proofs.Description.InPlace
import StencilShapes.Proofs.Program.Spelling
