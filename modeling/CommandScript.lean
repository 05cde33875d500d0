import CommandScript.Main
import CommandScript.Proofs.ListText.Quoting
import CommandScript.Proofs.ListText.RoundTrip
import CommandScript.Proofs.Evaluation.Data
import CommandScript.Proofs.Evaluation.Discipline
import CommandScript.Proofs.Evaluation.Script
import CommandScript.Proofs.Environment.Stack
import CommandScript.Proofs.Environment.Holds
import CommandScript.Proofs.Environment.Edit
import CommandScript.Proofs.Evaluation.Interp
import CommandScript.Proofs.Evaluation.Run
import CommandScript.Proofs.Standard.Data
import CommandScript.Proofs.Standard.Control
import CommandScript.Proofs.Interp.Flags
import CommandScript.Proofs.Interp.Tree
import CommandScript.Proofs.Evaluation.Conduct
import CommandScript.Proofs.Frames
import CommandScript.Proofs.Safety
import CommandScript.Proofs.Nesting
import CommandScript.Proofs.Expr.Rendering
import CommandScript.Proofs.Expr.Tokens
import CommandScript.Proofs.Expr.Precedence
import CommandScript.Proofs.Word.Lexeme
import CommandScript.Proofs.Word.Scanner
import CommandScript.Proofs.Word.Endings
import CommandScript.Proofs.Script.Building
import CommandScript.Proofs.Script.Newline
import CommandScript.Proofs.Script.Substitution
import CommandScript.Proofs.Script.SinglePass
import CommandScript.Proofs.Application
import CommandScript.Proofs.Links.Places
import CommandScript.Proofs.Links.Bounds
import CommandScript.Proofs.Environment.Slot
import CommandScript.Proofs.Environment.Resolution
import CommandScript.Proofs.Environment.Store
import CommandScript.Proofs.Environment.Alias
import CommandScript.Proofs.ListText.Script
import CommandScript.Proofs.Text.Octets
import CommandScript.Proofs.Word.Octets
import CommandScript.Proofs.Word.Bytes
import CommandScript.Proofs.Word.Spans
import CommandScript.Proofs.Namespace.Arena
import CommandScript.Proofs.Interp.Paths
import CommandScript.Proofs.Script.Completeness
import CommandScript.Proofs.Script.Blanks
import CommandScript.Proofs.Shell.Lines
import CommandScript.Proofs.Procedures.Calls
import CommandScript.Proofs.Procedures.Return
import CommandScript.Proofs.Procedures.ResultCodes
import CommandScript.Proofs.Environment.Listing
import CommandScript.Proofs.Links.Cycles
import CommandScript.Proofs.Links.Acyclic
import CommandScript.Proofs.Deferred.Waiting
import CommandScript.Proofs.Deferred.Executions
import CommandScript.Proofs.Deferred.Unwinding
import CommandScript.Proofs.Deferred.Outcomes
import CommandScript.Proofs.ListText.Trimming
import CommandScript.Proofs.Value.Text
import CommandScript.Proofs.ListText.Concatenation
import CommandScript.Proofs.Integer.Arithmetic
import CommandScript.Proofs.Expr.Numerals
import CommandScript.Proofs.Decimal.Order
import CommandScript.Proofs.Expr.Extremes
import CommandScript.Proofs.Name.Splitting
import CommandScript.Proofs.Namespace.Names
import CommandScript.Proofs.Environment.Arrays
import CommandScript.Proofs.Environment.Rename
import CommandScript.Proofs.Procedures.Binding
import CommandScript.Proofs.Procedures.Locals
import CommandScript.Proofs.Script.Locality
import CommandScript.Proofs.Shell.Completion
import CommandScript.Proofs.Script.Sources
import CommandScript.Proofs.Script.Segments
import CommandScript.Proofs.Standard.Positions
import CommandScript.Proofs.Interp.ListPaths
import CommandScript.Proofs.ListText.Bracing
import CommandScript.Proofs.Word.Places
import CommandScript.Proofs.Expr.Literals
