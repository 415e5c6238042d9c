import StateLang.Command.Run
import StateLang.Main
import StateLang.Proofs.Expr.Grammar
import StateLang.Proofs.Parser
import StateLang.Proofs.Expr.Climbing
import StateLang.Proofs.Program.Grammar
import StateLang.Proofs.Program.Reading
import StateLang.Proofs.Expr.Grouping
import StateLang.Proofs.Token.Scan
import StateLang.Proofs.Token.Lexeme
import StateLang.Proofs.Expr.Flat
import StateLang.Proofs.Expr.RoundTrip
import StateLang.Proofs.Expr.TargetPrecedence
import StateLang.Proofs.Token.Partition
import StateLang.Proofs.Resolved
import StateLang.Proofs.Fault
import StateLang.Proofs.Program.Mentions
import StateLang.Proofs.Document.Text
import StateLang.Proofs.Compilation
import StateLang.Proofs.Document.Legible
import StateLang.Proofs.Document.Decoding
import StateLang.Proofs.Program.Proper
import StateLang.Proofs.Token.Spacing
import StateLang.Proofs.Unplaced
import StateLang.Proofs.Program.Sentences
import StateLang.Proofs.Tracking
import StateLang.Proofs.Program.Earliest
import StateLang.Proofs.Files.Tree
import StateLang.Proofs.Command.Writing
import StateLang.Proofs.Command.Effects
import StateLang.Proofs.Locality
import StateLang.Proofs.Runs
import StateLang.Proofs.Program.Resolution
import StateLang.Proofs.Document.Methods
import StateLang.Proofs.Expr.Faithful
import StateLang.Proofs.Positions
import StateLang.Proofs.Program.Warnings
import StateLang.Proofs.FaultKind
import StateLang.Proofs.Token.Skipping
import StateLang.Proofs.Document.Rendering
