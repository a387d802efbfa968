import TransferFunction.CompileLog
import TransferFunction.Grammar
import TransferFunction.Proofs.StackHeights
import TransferFunction.Proofs.FoldEvaluation
import TransferFunction.Proofs.CheckedPrograms
import TransferFunction.Proofs.FoldNormalForm
import TransferFunction.Proofs.Unambiguity
import TransferFunction.Proofs.Binding
import TransferFunction.Proofs.PostfixOrder
import TransferFunction.Proofs.Outline
import TransferFunction.Proofs.Language
import TransferFunction.Proofs.Alternation
import TransferFunction.Proofs.Scanning
import TransferFunction.Proofs.Compilation
import TransferFunction.Proofs.Derivability
import TransferFunction.Proofs.Meaning
import TransferFunction.Proofs.NumeralReading
import TransferFunction.Proofs.Lexing
import TransferFunction.Proofs.Layouts
import TransferFunction.Formula
import TransferFunction.Proofs.Rendering
import TransferFunction.Proofs.Substitution
import TransferFunction.Proofs.Blame
import TransferFunction.Proofs.Diagnostics
import TransferFunction.Proofs.Editing
import TransferFunction.Proofs.FixedPoints
import TransferFunction.Proofs.StackDepth
import TransferFunction.Proofs.Completion
import TransferFunction.Proofs.EndOfInput
import TransferFunction.Proofs.OpenParentheses
import TransferFunction.Proofs.Recovery
import TransferFunction.Proofs.Renaming
import TransferFunction.Proofs.Spacing
import TransferFunction.Proofs.PendingOrder
import TransferFunction.Proofs.Conservation
import TransferFunction.Proofs.PositionalText
import TransferFunction.Proofs.DoubleBits
import TransferFunction.Proofs.NearestDouble
import TransferFunction.Proofs.DecimalReading
import TransferFunction.Proofs.StackMoves
import TransferFunction.Proofs.ShortestDecimal
import TransferFunction.Proofs.DoubleText
import TransferFunction.Proofs.ProgramText
