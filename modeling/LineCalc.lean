import LineCalc.Binary64.Basic
import LineCalc.Binary64.Display
import LineCalc.Binary64.Nearest
import LineCalc.Binary64.Shortest
import LineCalc.Bytes
import LineCalc.Chain.Basic
import LineCalc.Chain.Contraction
import LineCalc.Chain.Reduction
import LineCalc.CommandLine.Options
import LineCalc.CommandLine.Session
import LineCalc.Error
import LineCalc.Evaluate
import LineCalc.Expr
import LineCalc.Literal.Basic
import LineCalc.Literal.Scan
import LineCalc.Main
import LineCalc.Number
import LineCalc.Op
import LineCalc.Proofs.Chain.Confluence
import LineCalc.Proofs.Chain.Join
import LineCalc.Proofs.Chain.Order
import LineCalc.Proofs.Chain.Splitting
import LineCalc.Proofs.Chain.Trace
import LineCalc.Proofs.CommandLine.Arguments
import LineCalc.Proofs.CommandLine.Operands
import LineCalc.Proofs.Engines
import LineCalc.Proofs.Evaluate
import LineCalc.Proofs.Expr.Tight
import LineCalc.Proofs.Message
import LineCalc.Proofs.Rpn.Balance
import LineCalc.Proofs.Rpn.Postorder
import LineCalc.Proofs.Rpn.Space
import LineCalc.Proofs.Sentence
import LineCalc.Proofs.Token.Consumption
import LineCalc.Proofs.Token.Continuation
import LineCalc.Proofs.Token.Reach
import LineCalc.Proofs.Token.Reading
import LineCalc.Proofs.Token.Restart
import LineCalc.Proofs.Token.Settling
import LineCalc.Rpn.Compile
import LineCalc.Rpn.Machine
import LineCalc.Sentence
import LineCalc.Token.Basic
import LineCalc.Token.Lexer
import LineCalc.Token.Line
import LineCalc.Proofs.CommandLine.BlankInput
import LineCalc.Proofs.Token.Spacing
import LineCalc.Proofs.Binary64.Encoding
import LineCalc.Proofs.Binary64.Nearest
import LineCalc.Proofs.Binary64.Rounding
import LineCalc.Proofs.Literal.Value
import LineCalc.Proofs.Token.Alternation
import LineCalc.Proofs.Literal.Longest
import LineCalc.Proofs.Binary64.Display
import LineCalc.Proofs.Token.SequenceText
