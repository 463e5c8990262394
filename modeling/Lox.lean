import Lox.CommandLine
import Lox.Decimal.Layout
import Lox.Decimal.Shortest
import Lox.Event
import Lox.Fault
import Lox.Host
import Lox.Machine.Config
import Lox.Machine.Run
import Lox.Machine.State
import Lox.Machine.Step
import Lox.Main
import Lox.Parser.Basic
import Lox.Parser.Expression
import Lox.Parser.Statement
import Lox.Prompt.Buffer
import Lox.Prompt.Command
import Lox.Prompt.Highlight
import Lox.Prompt.Loop
import Lox.Prompt.Trace
import Lox.Proofs.Decimal.Numerals
import Lox.Proofs.Grammar.Genuine
import Lox.Proofs.Grammar.Phrase
import Lox.Proofs.Grammar.Productions
import Lox.Proofs.Grammar.Rules
import Lox.Proofs.Grammar.Sentence
import Lox.Proofs.Grammar.Shapes
import Lox.Proofs.Grammar.Tokens
import Lox.Proofs.Grammar.Trees
import Lox.Proofs.Grammar.Twin
import Lox.Proofs.Grammar.Written
import Lox.Proofs.Machine.Activations
import Lox.Proofs.Machine.Bindings
import Lox.Proofs.Machine.Calls
import Lox.Proofs.Machine.Chains
import Lox.Proofs.Machine.Changes
import Lox.Proofs.Machine.Construction
import Lox.Proofs.Machine.Declared
import Lox.Proofs.Machine.Echo
import Lox.Proofs.Machine.Effects
import Lox.Proofs.Machine.Ends
import Lox.Proofs.Machine.Frames
import Lox.Proofs.Machine.Genuine
import Lox.Proofs.Machine.Globals
import Lox.Proofs.Machine.Graft
import Lox.Proofs.Machine.Growth
import Lox.Proofs.Machine.Linked
import Lox.Proofs.Machine.Loops
import Lox.Proofs.Machine.Moments
import Lox.Proofs.Machine.Nesting
import Lox.Proofs.Machine.Reads
import Lox.Proofs.Machine.Receivers
import Lox.Proofs.Machine.Renaming
import Lox.Proofs.Machine.Returns
import Lox.Proofs.Machine.Sound
import Lox.Proofs.Machine.Steps
import Lox.Proofs.Machine.Twin
import Lox.Proofs.Machine.Words
import Lox.Proofs.Machine.World
import Lox.Proofs.Parser.Confined
import Lox.Proofs.Parser.Contained
import Lox.Proofs.Parser.Ending
import Lox.Proofs.Parser.Expression
import Lox.Proofs.Parser.Loops
import Lox.Proofs.Parser.Matches
import Lox.Proofs.Parser.Ordered
import Lox.Proofs.Parser.Phrase
import Lox.Proofs.Parser.Reading
import Lox.Proofs.Parser.Scanned
import Lox.Proofs.Parser.Sentence
import Lox.Proofs.Parser.Shapes
import Lox.Proofs.Parser.Statement
import Lox.Proofs.Parser.Tokens
import Lox.Proofs.Parser.Twin
import Lox.Proofs.Parser.Written
import Lox.Proofs.Prompt.Brackets
import Lox.Proofs.Prompt.Coverage
import Lox.Proofs.Prompt.Placement
import Lox.Proofs.Prompt.Programs
import Lox.Proofs.Prompt.Refinement
import Lox.Proofs.Prompt.Submission
import Lox.Proofs.Scan.Joined
import Lox.Proofs.Scan.Layout
import Lox.Proofs.Scan.Lexicon
import Lox.Proofs.Scan.Pieces
import Lox.Proofs.Scan.Places
import Lox.Proofs.Scan.Positions
import Lox.Proofs.Scan.Renaming
import Lox.Proofs.Scan.Segmentation
import Lox.Proofs.Scan.Strings
import Lox.Proofs.Scope.Addresses
import Lox.Proofs.Scope.Declarations
import Lox.Proofs.Scope.InOrder
import Lox.Proofs.Scope.Joined
import Lox.Proofs.Scope.Located
import Lox.Proofs.Scope.Marks
import Lox.Proofs.Scope.Members
import Lox.Proofs.Scope.Mentions
import Lox.Proofs.Scope.Misuses
import Lox.Proofs.Scope.Orderly
import Lox.Proofs.Scope.Renaming
import Lox.Proofs.Scope.Returns
import Lox.Proofs.Scope.Settled
import Lox.Proofs.Scope.Sites
import Lox.Proofs.Scope.Survey
import Lox.Proofs.Scope.Tokens
import Lox.Proofs.Scope.Twin
import Lox.Proofs.Scope.Walk
import Lox.Proofs.Session.Addresses
import Lox.Proofs.Session.Construction
import Lox.Proofs.Session.Echo
import Lox.Proofs.Session.Failures
import Lox.Proofs.Session.Growth
import Lox.Proofs.Session.Heap
import Lox.Proofs.Session.History
import Lox.Proofs.Session.Joined
import Lox.Proofs.Session.Layout
import Lox.Proofs.Session.Nodes
import Lox.Proofs.Session.Permanence
import Lox.Proofs.Session.Receivers
import Lox.Proofs.Session.Rejected
import Lox.Proofs.Session.Renaming
import Lox.Proofs.Session.Resolutions
import Lox.Proofs.Session.Returns
import Lox.Proofs.Session.Safety
import Lox.Proofs.Session.Scoping
import Lox.Proofs.Session.Search
import Lox.Proofs.Session.Strings
import Lox.Proofs.Session.Trace
import Lox.Proofs.Session.Twin
import Lox.Proofs.Store.Evolution
import Lox.Proofs.Store.Forest
import Lox.Proofs.Store.Linked
import Lox.Proofs.Store.Lookups
import Lox.Proofs.Store.Paths
import Lox.Proofs.Store.Properties
import Lox.Proofs.Store.Receivers
import Lox.Proofs.Store.Twin
import Lox.Proofs.Syntax.ReadBack
import Lox.Proofs.Syntax.Sexp
import Lox.Proofs.Syntax.Shape
import Lox.Proofs.Syntax.Tokens
import Lox.Proofs.Syntax.Twin
import Lox.Report
import Lox.RuntimeError
import Lox.Scan.Piece
import Lox.Scan.Tokens
import Lox.Scope.Context
import Lox.Scope.Locals
import Lox.Scope.Nodes
import Lox.Scope.Resolve
import Lox.Session
import Lox.Session.Objects
import Lox.Store.Basic
import Lox.Store.Environment
import Lox.Store.Object
import Lox.Syntax.Occurrence
import Lox.Syntax.Operator
import Lox.Syntax.Outline
import Lox.Syntax.Printer
import Lox.Syntax.Sexp
import Lox.Syntax.Tree
import Lox.Table
import Lox.Text.Blank
import Lox.Text.Printable
import Lox.Text.Quoted
import Lox.Token
import Lox.Value
