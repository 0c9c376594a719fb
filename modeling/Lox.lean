import Lox.Console.Command
import Lox.Main
import Lox.Proofs.Grammar.Expr
import Lox.Proofs.Reading.Expr
import Lox.Proofs.Grammar.Decl
import Lox.Proofs.Reading.Decl
import Lox.Proofs.Reading.Rest
import Lox.Proofs.Reading.Program
import Lox.Proofs.Evaluation.Reach
import Lox.Proofs.Evaluation.Operation
import Lox.Proofs.Evaluation.Scopes
import Lox.Proofs.Evaluation.Nesting
import Lox.Proofs.Scanning.Spelling
import Lox.Proofs.Scanning.Token
import Lox.Proofs.Evaluation.Faults
import Lox.Proofs.Evaluation.Sessions
import Lox.Proofs.Printing.Shift
import Lox.Proofs.Printing.Tokens
import Lox.Proofs.Printing.Expr
import Lox.Proofs.Printing.Decl
import Lox.Proofs.Printing.Program
import Lox.Proofs.Evaluation.Limit
import Lox.Proofs.Printing.Growth
import Lox.Proofs.Grammar.Greedy
import Lox.Proofs.Reading.Progress
import Lox.Proofs.Reading.Braces
import Lox.Proofs.Reading.Recovery
import Lox.Proofs.Reading.Insertion
import Lox.Proofs.Reading.Containment
import Lox.Proofs.Grammar.Sentence
import Lox.Proofs.Reading.Sentence
import Lox.Proofs.Reading.Alike
import Lox.Proofs.Scanning.Joining
import Lox.Proofs.Reading.Joining
import Lox.Proofs.Reading.Termination
import Lox.Proofs.Evaluation.Lines
import Lox.Proofs.Evaluation.Pieces
import Lox.Proofs.Evaluation.Writes
import Lox.Proofs.Evaluation.Frame
import Lox.Proofs.Scanning.Pieces
import Lox.Proofs.Scanning.Longest
import Lox.Proofs.Console.Braces
import Lox.Proofs.Environment.Stack
import Lox.Proofs.Console.Repl
import Lox.Proofs.Evaluation.Blame
import Lox.Proofs.Evaluation.Reports
import Lox.Proofs.Reading.Viable
import Lox.Proofs.Printing.Fingerprint
import Lox.Proofs.Reading.Kinds
import Lox.Proofs.Scanning.Blanks
import Lox.Proofs.Reading.Layout
import Lox.Proofs.Reading.Starts
import Lox.Proofs.Evaluation.Simulation
import Lox.Proofs.Evaluation.Truncation
import Lox.Proofs.Reading.Narrowing
import Lox.Proofs.Environment.Opened
import Lox.Proofs.Environment.Padding
import Lox.Proofs.Evaluation.Counter
import Lox.Proofs.Evaluation.Braced
import Lox.Proofs.Evaluation.Unmentioned
import Lox.Proofs.Environment.Arena
import Lox.Proofs.Double.Rounding
import Lox.Proofs.Double.Bits
import Lox.Proofs.Scanning.Number
import Lox.Proofs.Evaluation.Numerals
import Lox.Proofs.Scanning.Cursor
import Lox.Proofs.Reading.Cursor
import Lox.Proofs.Reading.Follow
import Lox.Proofs.Reading.Counter
