import ScriptLang.CommandLine
import ScriptLang.Evaluator.Basic
import ScriptLang.Evaluator.Evaluate
import ScriptLang.Evaluator.Operation
import ScriptLang.Fault
import ScriptLang.Interpreter
import ScriptLang.Lexer.Basic
import ScriptLang.Lexer.Cursor
import ScriptLang.Lexer.Scan
import ScriptLang.Limits
import ScriptLang.Main
import ScriptLang.Native
import ScriptLang.Number.Binary64
import ScriptLang.Number.Numeral
import ScriptLang.Number.Range
import ScriptLang.Number.Shortest
import ScriptLang.Operator
import ScriptLang.Parser.Basic
import ScriptLang.Parser.Grammar
import ScriptLang.Prototype
import ScriptLang.Scopes
import ScriptLang.Server.Authority
import ScriptLang.Server.Basic
import ScriptLang.Server.Index
import ScriptLang.Server.Symbol
import ScriptLang.Server.Uri
import ScriptLang.Table
import ScriptLang.Text.Blank
import ScriptLang.Text.Digit
import ScriptLang.Text.Newline
import ScriptLang.Text.Position
import ScriptLang.Text.Printable
import ScriptLang.Text.Quoted
import ScriptLang.Text.Utf8
import ScriptLang.Text.Word
import ScriptLang.Token
import ScriptLang.Tree.Basic
import ScriptLang.Tree.Listing
import ScriptLang.Tree.Same
import ScriptLang.Value
import ScriptLang.World.Basic
import ScriptLang.World.Disk
import ScriptLang.Proofs.ScopeChains
import ScriptLang.Proofs.Evaluator.Discipline
import ScriptLang.Proofs.Parser.Simulation
import ScriptLang.Proofs.Parser.Rules
import ScriptLang.Proofs.Parser.Streams
import ScriptLang.Proofs.Parser.Layout
import ScriptLang.Proofs.Lexer.Locality
import ScriptLang.Proofs.Parser.Moved
import ScriptLang.Proofs.Parser.Boundary
import ScriptLang.Proofs.Lexer.Source
import ScriptLang.Proofs.Parser.Success
import ScriptLang.Proofs.Parser.RoundTrip
import ScriptLang.Proofs.Lexer.Longest
import ScriptLang.Proofs.Lexer.Splitting
import ScriptLang.Proofs.Lexer.Rebuilding
import ScriptLang.Proofs.Parser.Comments
import ScriptLang.Proofs.Tree.Parts
import ScriptLang.Proofs.Tree.WellFormed
import ScriptLang.Proofs.Tree.Bindings
import ScriptLang.Proofs.Parser.Phrases
import ScriptLang.Proofs.Parser.WellFormed
import ScriptLang.Proofs.Evaluator.Regime
import ScriptLang.Proofs.Runs
import ScriptLang.Proofs.Evaluator.Kinds
import ScriptLang.Proofs.Evaluator.Composition
import ScriptLang.Proofs.Evaluator.Frames
import ScriptLang.Proofs.Evaluator.Names
import ScriptLang.Proofs.Evaluator.Replays
import ScriptLang.Proofs.Evaluator.DepthLimit
import ScriptLang.Proofs.Evaluator.Termination
import ScriptLang.Proofs.Tree.Lines
import ScriptLang.Proofs.Evaluator.Relabelled
import ScriptLang.Proofs.Evaluator.Changes
import ScriptLang.Proofs.Pieces
import ScriptLang.Proofs.Parser.Courses
import ScriptLang.Proofs.Evaluator.Operations
import ScriptLang.Proofs.Worlds
import ScriptLang.Proofs.Evaluator.Guarded
import ScriptLang.Proofs.Evaluator.Origins
import ScriptLang.Proofs.Faults
import ScriptLang.Proofs.Server.Histories
import ScriptLang.Proofs.Debugging
import ScriptLang.Proofs.Evaluator.MemberCalls
import ScriptLang.Proofs.Parser.Chains
import ScriptLang.Proofs.Parser.FileNames
import ScriptLang.Proofs.Parser.Semicolons
import ScriptLang.Proofs.Drivers
import ScriptLang.Proofs.Evaluator.Signals
import ScriptLang.Proofs.Evaluator.Unquoted
import ScriptLang.Proofs.Evaluator.Returns
import ScriptLang.Proofs.Evaluable
import ScriptLang.Proofs.Parser.Formatted
import ScriptLang.Proofs.Evaluator.Arithmetic
import ScriptLang.Proofs.Evaluator.OperatorTable
import ScriptLang.Proofs.Parser.Arguments
import ScriptLang.Proofs.Parser.Declarations
import ScriptLang.Proofs.Server.Symbols
import ScriptLang.Proofs.Parser.Places
import ScriptLang.Proofs.Parser.Progress
import ScriptLang.Proofs.Number.Numeral
import ScriptLang.Proofs.Lexer.Floats
import ScriptLang.Proofs.Formats
import ScriptLang.Proofs.Evaluator.TextLength
import ScriptLang.Proofs.Lexer.Lookahead
