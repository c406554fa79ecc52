import LoxLexer.Main
import LoxLexer.Proofs.CursorRun
import LoxLexer.Proofs.Greedy
import LoxLexer.Proofs.Insertion
import LoxLexer.Proofs.LineEndings
import LoxLexer.Proofs.Lines
import LoxLexer.Proofs.Lookahead
import LoxLexer.Proofs.Newline
import LoxLexer.Proofs.PromptLines
import LoxLexer.Proofs.Reprint
import LoxLexer.Proofs.Sinks
import LoxLexer.Proofs.Delimited
import LoxLexer.Proofs.TokenLines
import LoxLexer.Proofs.JsonText
import LoxLexer.Proofs.Documents
import LoxLexer.Proofs.Outcomes
import LoxLexer.Proofs.ScriptRuns
import LoxLexer.Proofs.Sessions
import LoxLexer.Proofs.LastPlace
import LoxLexer.Proofs.LimitedOutput
import LoxLexer.Proofs.ShownLiterals
import LoxLexer.Proofs.PlaceOrder
import LoxLexer.Proofs.LiteralValues
import LoxLexer.Proofs.Substitution
import LoxLexer.Proofs.ErrorReports
