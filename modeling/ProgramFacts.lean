import ProgramFacts.Answer
import ProgramFacts.Attribute
import ProgramFacts.Batch
import ProgramFacts.CallGraph
import ProgramFacts.Clause
import ProgramFacts.Command
import ProgramFacts.Command.Arguments
import ProgramFacts.Command.Directory
import ProgramFacts.Condition.Parser
import ProgramFacts.Dataflow
import ProgramFacts.Digraph
import ProgramFacts.Element
import ProgramFacts.Entity
import ProgramFacts.Expr.Parser
import ProgramFacts.Expr.Postorder
import ProgramFacts.FactBase
import ProgramFacts.FactBase.Extraction
import ProgramFacts.Flow
import ProgramFacts.Flow.Walk
import ProgramFacts.Json
import ProgramFacts.Json.Number
import ProgramFacts.Json.Reader
import ProgramFacts.Main
import ProgramFacts.Profile
import ProgramFacts.Profile.Reader
import ProgramFacts.Program
import ProgramFacts.Program.Parser
import ProgramFacts.Proofs.Batch
import ProgramFacts.Proofs.CallGraph
import ProgramFacts.Proofs.CallGraph.Order
import ProgramFacts.Proofs.Condition.Acceptance
import ProgramFacts.Proofs.Condition.Grammar
import ProgramFacts.Proofs.Dataflow
import ProgramFacts.Proofs.Dataflow.Extension
import ProgramFacts.Proofs.Digraph
import ProgramFacts.Proofs.Expr.Acceptance
import ProgramFacts.Proofs.Expr.Conservation
import ProgramFacts.Proofs.Expr.Grammar
import ProgramFacts.Proofs.Expr.Phrase
import ProgramFacts.Proofs.Expr.Postorder
import ProgramFacts.Proofs.Expr.Subtree
import ProgramFacts.Proofs.FactBase.Acceptance
import ProgramFacts.Proofs.FactBase.Closures
import ProgramFacts.Proofs.FactBase.Domains
import ProgramFacts.Proofs.FactBase.Effects
import ProgramFacts.Proofs.FactBase.Extraction
import ProgramFacts.Proofs.FactBase.Irreflexive
import ProgramFacts.Proofs.FactBase.Patterns
import ProgramFacts.Proofs.Flow
import ProgramFacts.Proofs.Flow.Completion
import ProgramFacts.Proofs.Flow.Paths
import ProgramFacts.Proofs.Flow.Steps
import ProgramFacts.Proofs.Flow.Termination
import ProgramFacts.Proofs.Flow.Traces
import ProgramFacts.Proofs.Flow.Walk
import ProgramFacts.Proofs.Ordered
import ProgramFacts.Proofs.Outcome
import ProgramFacts.Proofs.Program.Coverage
import ProgramFacts.Proofs.Program.Grammar
import ProgramFacts.Proofs.Program.Nodes
import ProgramFacts.Proofs.Program.Numbering
import ProgramFacts.Proofs.Program.Printing
import ProgramFacts.Proofs.Program.RoundTrip
import ProgramFacts.Proofs.Program.WellFormed
import ProgramFacts.Proofs.Query.Candidates
import ProgramFacts.Proofs.Query.Constants
import ProgramFacts.Proofs.Query.Exactness
import ProgramFacts.Proofs.Query.Faults
import ProgramFacts.Proofs.Query.Grammar
import ProgramFacts.Proofs.Query.Layout
import ProgramFacts.Proofs.Query.Narrowing
import ProgramFacts.Proofs.Query.RoundTrip
import ProgramFacts.Proofs.Query.Satisfaction
import ProgramFacts.Proofs.Query.Selection
import ProgramFacts.Proofs.Query.Typing
import ProgramFacts.Proofs.Query.Words
import ProgramFacts.Proofs.Search
import ProgramFacts.Proofs.Sorting
import ProgramFacts.Proofs.Strategy
import ProgramFacts.Proofs.Survey
import ProgramFacts.Proofs.Survey.Placement
import ProgramFacts.Proofs.Table
import ProgramFacts.Proofs.Table.Bag
import ProgramFacts.Proofs.Table.Components
import ProgramFacts.Proofs.Table.Group
import ProgramFacts.Proofs.Table.Join
import ProgramFacts.Proofs.Table.Rectangular
import ProgramFacts.Proofs.Text
import ProgramFacts.Proofs.Text.Lines
import ProgramFacts.Proofs.Token.Layout
import ProgramFacts.Proofs.Token.Lexing
import ProgramFacts.Proofs.Token.Spacing
import ProgramFacts.Proofs.Token.Spread
import ProgramFacts.Proofs.Tree
import ProgramFacts.Query
import ProgramFacts.Query.Check
import ProgramFacts.Query.Evaluation
import ProgramFacts.Query.Lexer
import ProgramFacts.Query.Parser
import ProgramFacts.QueryError
import ProgramFacts.Reading
import ProgramFacts.Relation
import ProgramFacts.Search
import ProgramFacts.SourceError
import ProgramFacts.Strategy
import ProgramFacts.Survey
import ProgramFacts.Table
import ProgramFacts.Table.Group
import ProgramFacts.Text.Blank
import ProgramFacts.Text.Count
import ProgramFacts.Text.Word
import ProgramFacts.Token
import ProgramFacts.Token.Lexer
import ProgramFacts.Token.Scanner
import ProgramFacts.Tree
import ProgramFacts.Tree.Kind
import ProgramFacts.Yaml
