import AutoAwait.Bindings
import AutoAwait.Catalog
import AutoAwait.CommandLine.Arguments
import AutoAwait.CommandLine.Command
import AutoAwait.CommandLine.Directory
import AutoAwait.CommandLine.FilePath
import AutoAwait.Event
import AutoAwait.Json.Basic
import AutoAwait.Json.Reader
import AutoAwait.Main
import AutoAwait.Node.Basic
import AutoAwait.Node.Printer
import AutoAwait.Node.Rules
import AutoAwait.Node.Walk
import AutoAwait.ParseTree.Basic
import AutoAwait.ParseTree.Error
import AutoAwait.ParseTree.Parser
import AutoAwait.ParseTree.ToNode
import AutoAwait.Proofs.Catalog.Closed
import AutoAwait.Proofs.Catalog.Order
import AutoAwait.Proofs.Catalog.WellFormed
import AutoAwait.Proofs.Grammar.Complete
import AutoAwait.Proofs.Grammar.Derivable
import AutoAwait.Proofs.Grammar.Fits
import AutoAwait.Proofs.Grammar.Sound
import AutoAwait.Proofs.Grammar.Written
import AutoAwait.Proofs.Printing.Nested
import AutoAwait.Proofs.Script.Arrow
import AutoAwait.Proofs.Script.Branches
import AutoAwait.Proofs.Script.Compile
import AutoAwait.Proofs.Script.Faults
import AutoAwait.Proofs.Script.Forks
import AutoAwait.Proofs.Script.Levels
import AutoAwait.Proofs.Script.Locations
import AutoAwait.Proofs.Script.Misfit
import AutoAwait.Proofs.Script.Numerals
import AutoAwait.Proofs.Script.ProgramFrames
import AutoAwait.Proofs.Script.Scopes
import AutoAwait.Proofs.Script.Twice
import AutoAwait.Proofs.Script.Writers
import AutoAwait.Proofs.Table.History
import AutoAwait.Proofs.Token.Boundaries
import AutoAwait.Proofs.Token.Comments
import AutoAwait.Proofs.Token.Gaps
import AutoAwait.Proofs.Tree.Hooks
import AutoAwait.Proofs.Tree.Parts
import AutoAwait.Proofs.Tree.Path
import AutoAwait.Proofs.Typing.Annotated
import AutoAwait.Proofs.Typing.Closed
import AutoAwait.Proofs.Typing.Kept
import AutoAwait.Proofs.Typing.Rerun
import AutoAwait.Proofs.Typing.Respelled
import AutoAwait.Proofs.Typing.Returns
import AutoAwait.Proofs.Typing.Step
import AutoAwait.Script
import AutoAwait.Session
import AutoAwait.ShellType.Basic
import AutoAwait.ShellType.Registry
import AutoAwait.SymbolTable
import AutoAwait.TableStep
import AutoAwait.Text.DecimalDigit
import AutoAwait.Text.LineBreak
import AutoAwait.Text.NumberParts
import AutoAwait.Text.Numeral
import AutoAwait.Text.Position
import AutoAwait.Text.Printable
import AutoAwait.Text.Quoted
import AutoAwait.Text.Ranges
import AutoAwait.Text.StringLiteral
import AutoAwait.Text.WordChar
import AutoAwait.Token.Basic
import AutoAwait.Token.Lexeme
import AutoAwait.Token.Terminator
import AutoAwait.Typing
import AutoAwait.Writer
