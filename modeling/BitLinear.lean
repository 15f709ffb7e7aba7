import BitLinear.BitMatrix.Basic
import BitLinear.BitMatrix.Elimination
import BitLinear.BitMatrix.LinearMap
import BitLinear.BitMatrix.Text
import BitLinear.BitRow.Basic
import BitLinear.BitRow.Text
import BitLinear.Byte
import BitLinear.ByteProgram
import BitLinear.ByteSource
import BitLinear.Command.Arguments
import BitLinear.Command.Failure
import BitLinear.Command.Files
import BitLinear.Command.Run
import BitLinear.Error
import BitLinear.Generator
import BitLinear.Keystream
import BitLinear.Main
import BitLinear.RowBasis
import BitLinear.Sampling
import BitLinear.Text.Blank
import BitLinear.Text.Decimal
import BitLinear.Text.Hex
import BitLinear.Text.Quoted
import BitLinear.Text.Record
import BitLinear.TrackedRow
import BitLinear.BitRow.Lemmas
import BitLinear.Proofs.Checked
import BitLinear.Proofs.Measures
import BitLinear.Proofs.Bitwise
import BitLinear.Proofs.Vector
import BitLinear.Proofs.Span
import BitLinear.Proofs.Matrix
import BitLinear.Proofs.InnerProduct
import BitLinear.Proofs.Composition
import BitLinear.Proofs.Transpose
import BitLinear.Proofs.RowOperations
import BitLinear.Proofs.Elimination
import BitLinear.Proofs.Inversion
import BitLinear.Proofs.InverseLaws
import BitLinear.Proofs.Trace
import BitLinear.Proofs.InvertibleCount
import BitLinear.Proofs.ReducedBasis
import BitLinear.Proofs.Growth
import BitLinear.Proofs.Calls
import BitLinear.Proofs.Canonical
import BitLinear.Proofs.InverseAgreement
import BitLinear.Proofs.WorkingRows
import BitLinear.Proofs.Offers
import BitLinear.Proofs.NormalForm
import BitLinear.Proofs.Rank
import BitLinear.Proofs.Supply
import BitLinear.Proofs.LinearMap
import BitLinear.Proofs.Rejection
import BitLinear.Proofs.Filling
import BitLinear.Proofs.Density
import BitLinear.Proofs.Strategies
import BitLinear.Proofs.Uniformity
import BitLinear.Proofs.Masking
import BitLinear.Proofs.Selection
import BitLinear.Proofs.FirstFresh
import BitLinear.Proofs.Attempts
import BitLinear.Proofs.Endless
import BitLinear.Proofs.Lines
import BitLinear.Proofs.HexText
import BitLinear.Proofs.MatrixText
import BitLinear.Proofs.Checks
import BitLinear.Proofs.Grammar
import BitLinear.Proofs.Faults
import BitLinear.Proofs.Interface
import BitLinear.Proofs.Refusals
import BitLinear.Proofs.Commands
import BitLinear.Proofs.InversionCommands
import BitLinear.Proofs.Messages
import BitLinear.Proofs.Stages
import BitLinear.Proofs.Demonstration
