import Lambda94.Avl
import Lambda94.CommandLine.Options
import Lambda94.CommandLine.Run
import Lambda94.Eval.Error
import Lambda94.Eval.Limits
import Lambda94.Eval.Machine
import Lambda94.Eval.Scalar
import Lambda94.Eval.Session
import Lambda94.Eval.Text
import Lambda94.Expr.Basic
import Lambda94.Expr.Json
import Lambda94.Expr.Pretty
import Lambda94.Expr.Wire
import Lambda94.Failure
import Lambda94.Generate
import Lambda94.Json.Basic
import Lambda94.Json.Reader
import Lambda94.Json.Writer
import Lambda94.Number.Basic
import Lambda94.Number.Shortest
import Lambda94.Number.Text
import Lambda94.Numeral
import Lambda94.Operator
import Lambda94.Program
import Lambda94.Rename
import Lambda94.Scope
import Lambda94.Text.Blank
import Lambda94.Text.Decimal
import Lambda94.Text.Quoted
import Lambda94.Text.Basic
import Lambda94.Value
import Lambda94.Wire.Alphabet
import Lambda94.Wire.Cipher
import Lambda94.Wire.CodecError
import Lambda94.Wire.Grammar
import Lambda94.Wire.Integer
import Lambda94.Wire.ParseTree
import Lambda94.Wire.Token
import Lambda94.Main
import Lambda94.Proofs.CallByName
import Lambda94.Proofs.Closed
import Lambda94.Proofs.FirstOrder
import Lambda94.Proofs.FlatStore
import Lambda94.Proofs.FreeNumerals
import Lambda94.Proofs.MachineRun
import Lambda94.Proofs.Outcome
import Lambda94.Proofs.Position
import Lambda94.Proofs.Renaming
import Lambda94.Proofs.SearchTree
import Lambda94.Proofs.Soundness
import Lambda94.Proofs.WellFormed
import Lambda94.Proofs.Simulation
import Lambda94.Proofs.Limits
import Lambda94.Proofs.Respelling
import Lambda94.Proofs.Reading
import Lambda94.Proofs.Reference
import Lambda94.Proofs.IntegerBody
import Lambda94.Proofs.StringBody
import Lambda94.Proofs.Spelling
import Lambda94.Proofs.WireText
import Lambda94.Proofs.RoundTrip
import Lambda94.Proofs.StepCount
import Lambda94.Proofs.JsonText
import Lambda94.Proofs.JsonRoundTrip
import Lambda94.Proofs.OperatorError
import Lambda94.Proofs.Invariant
import Lambda94.Proofs.BoundVariables
import Lambda94.Proofs.Afresh
import Lambda94.Proofs.SourceFunctions
import Lambda94.Proofs.ByHand
import Lambda94.Proofs.SimpleTypes
import Lambda94.Proofs.UnusedArgument
import Lambda94.Proofs.WrappedIds
import Lambda94.Proofs.Generated
import Lambda94.Proofs.Versions
import Lambda94.Proofs.Balance
import Lambda94.Proofs.ShownSteps
import Lambda94.Proofs.TaggedIntegers
import Lambda94.Proofs.JsonSchema
import Lambda94.Proofs.JsonReading
import Lambda94.Proofs.Objections
import Lambda94.Proofs.Arithmetic
import Lambda94.Proofs.Division
import Lambda94.Proofs.GrammarScan
import Lambda94.Proofs.ReadErrors
import Lambda94.Proofs.SharedSupply
import Lambda94.Proofs.UniqueReading
import Lambda94.Proofs.Spacing
import Lambda94.Proofs.Budgets
import Lambda94.Proofs.Course
import Lambda94.Proofs.Segments
import Lambda94.Proofs.UnaryChain
import Lambda94.Proofs.IntegerRange
