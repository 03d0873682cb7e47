import Scoped.Config
import Scoped.Error
import Scoped.Eval.Basic
import Scoped.Eval.Machine
import Scoped.Eval.Native
import Scoped.Grammar.Attempts
import Scoped.Grammar.Layout
import Scoped.Grammar.Matcher
import Scoped.Grammar.Node
import Scoped.Grammar.Pattern
import Scoped.Grammar.Rule
import Scoped.Grammar.Tree
import Scoped.Interpreter
import Scoped.Number.Basic
import Scoped.Number.Binary64
import Scoped.Number.Decimal
import Scoped.Operator
import Scoped.Program.Basic
import Scoped.Program.Check
import Scoped.Program.Literal
import Scoped.Program.Read
import Scoped.Proofs.Alike
import Scoped.Proofs.Arithmetic
import Scoped.Proofs.CallDepth
import Scoped.Proofs.Comparison
import Scoped.Proofs.Completeness
import Scoped.Proofs.Concatenation
import Scoped.Proofs.Configuration
import Scoped.Proofs.Constructs
import Scoped.Proofs.Context
import Scoped.Proofs.Contracts
import Scoped.Proofs.Counters
import Scoped.Proofs.Coupling
import Scoped.Proofs.Declarations
import Scoped.Proofs.Derivations
import Scoped.Proofs.Descent
import Scoped.Proofs.Doubles
import Scoped.Proofs.Erasure
import Scoped.Proofs.Evaluation
import Scoped.Proofs.Failure
import Scoped.Proofs.Faithfulness
import Scoped.Proofs.Identities
import Scoped.Proofs.Insertion
import Scoped.Proofs.Lexical
import Scoped.Proofs.Locality
import Scoped.Proofs.Locations
import Scoped.Proofs.Matching
import Scoped.Proofs.Numerals
import Scoped.Proofs.Operations
import Scoped.Proofs.Output
import Scoped.Proofs.Oversized
import Scoped.Proofs.Parameters
import Scoped.Proofs.Phrases
import Scoped.Proofs.Places
import Scoped.Proofs.Positions
import Scoped.Proofs.Records
import Scoped.Proofs.Recursion
import Scoped.Proofs.Redeclaration
import Scoped.Proofs.Resolution
import Scoped.Proofs.RoundTrip
import Scoped.Proofs.Rounding
import Scoped.Proofs.Scopes
import Scoped.Proofs.Scripts
import Scoped.Proofs.Searches
import Scoped.Proofs.Shapes
import Scoped.Proofs.Simulation
import Scoped.Proofs.Sites
import Scoped.Proofs.Slices
import Scoped.Proofs.Soundness
import Scoped.Proofs.Spans
import Scoped.Proofs.Spelling
import Scoped.Proofs.Standing
import Scoped.Proofs.StaticCheck
import Scoped.Proofs.Steps
import Scoped.Proofs.Strings
import Scoped.Proofs.Terminals
import Scoped.Proofs.Termination
import Scoped.Proofs.Tokenization
import Scoped.Proofs.Tokens
import Scoped.Proofs.Traces
import Scoped.Proofs.WellFormed
import Scoped.Proofs.Words
import Scoped.Sink
import Scoped.Span
import Scoped.Store.Basic
import Scoped.Store.Record
import Scoped.Text.Blank
import Scoped.Text.Quoted
import Scoped.Value
