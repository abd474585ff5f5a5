import FeatureTree.Main
import FeatureTree.FileTree
import FeatureTree.Node.Spans
import FeatureTree.Session
import FeatureTree.Proofs.Grammar.Depth
import FeatureTree.Proofs.Grammar.Records
import FeatureTree.Proofs.Grammar.Contributions
import FeatureTree.Proofs.Language.Summaries
import FeatureTree.Proofs.Snippet.Parse
import FeatureTree.Proofs.Snippet.Shape
import FeatureTree.Proofs.Grammar.Trivia
import FeatureTree.Proofs.Language.Trivia
import FeatureTree.Proofs.Language.Ranks
import FeatureTree.Proofs.Grammar.Match
import FeatureTree.Proofs.Snippet.Boundary
import FeatureTree.Proofs.Traversal.Canonical
import FeatureTree.Proofs.Traversal.Tokens
import FeatureTree.Proofs.Traversal.Atoms
import FeatureTree.Proofs.Traversal.Predicates
import FeatureTree.Proofs.Traversal.Printed
import FeatureTree.Proofs.Traversal.Range
import FeatureTree.Proofs.Traversal.Roundtrip
import FeatureTree.Proofs.Traversal.Chains
import FeatureTree.Proofs.Grammar.Nesting
import FeatureTree.Proofs.Grammar.Trim
import FeatureTree.Proofs.Language.Steady
import FeatureTree.Proofs.Node.Order
import FeatureTree.Proofs.Node.Faults
import FeatureTree.Proofs.Snippet.Root
import FeatureTree.Proofs.Snippet.Order
import FeatureTree.Proofs.Grammar.Calls
import FeatureTree.Proofs.Grammar.Endings
import FeatureTree.Proofs.Grammar.Whitespace
import FeatureTree.Proofs.Language.Whitespace
import FeatureTree.Proofs.Node.Nested
import FeatureTree.Proofs.Node.Untrimmed
import FeatureTree.Proofs.Language.Endings
import FeatureTree.Proofs.Snippet.Uncommented
import FeatureTree.Proofs.Traversal.Lexing
import FeatureTree.Proofs.Traversal.Derivation
import FeatureTree.Proofs.Traversal.Accepted
import FeatureTree.Proofs.Traversal.Derived
import FeatureTree.Proofs.Grammar.Beginnings
import FeatureTree.Proofs.Grammar.Words
import FeatureTree.Proofs.Snippet.Alternatives
import FeatureTree.Proofs.Language.Members
import FeatureTree.Proofs.Snippet.Members
import FeatureTree.Proofs.Language.CSharpMembers
import FeatureTree.Proofs.Snippet.CSharpMembers
import FeatureTree.Proofs.Grammar.Brackets
import FeatureTree.Proofs.Language.Brackets
import FeatureTree.Proofs.Adapter.Stream
import FeatureTree.Proofs.Adapter.Runs
import FeatureTree.Proofs.FileTree.Walk
import FeatureTree.Proofs.CommandLine.Batch
import FeatureTree.Proofs.Yaml.Lines
import FeatureTree.Proofs.Yaml.Entries
import FeatureTree.Proofs.Yaml.Printed
import FeatureTree.Proofs.Yaml.Nodes
import FeatureTree.Proofs.Config.Roundtrip
import FeatureTree.Proofs.Exchange.Match
import FeatureTree.Proofs.Exchange.Balanced
import FeatureTree.Proofs.Exchange.Initializers
import FeatureTree.Proofs.Exchange.Comment
import FeatureTree.Proofs.Exchange.Declarators
import FeatureTree.Proofs.Exchange.Front
import FeatureTree.Proofs.Exchange.Variables
import FeatureTree.Proofs.Language.Exchange
import FeatureTree.Proofs.Snippet.Comments
import FeatureTree.Proofs.Grammar.Spelled
import FeatureTree.Proofs.Declarators.Values
import FeatureTree.Proofs.Declarators.Passes
import FeatureTree.Proofs.Declarators.Tokens
import FeatureTree.Proofs.Declarators.Lists
import FeatureTree.Proofs.Language.Declarators
import FeatureTree.Proofs.Language.CDeclarators
import FeatureTree.Proofs.Snippet.Declarators
import FeatureTree.Proofs.Declarators.TypeArguments
import FeatureTree.Proofs.Language.TypeArguments
import FeatureTree.Proofs.Snippet.TypeArguments
import FeatureTree.Proofs.Grammar.Failure
import FeatureTree.Proofs.Snippet.Trailing
import FeatureTree.Proofs.Snippet.Errors
import FeatureTree.Proofs.Node.Identifiers
import FeatureTree.Proofs.Snippet.Identifiers
import FeatureTree.Proofs.Snippet.Methods
import FeatureTree.Proofs.Snippet.SpecialNames
import FeatureTree.Proofs.Traversal.Rejections
import FeatureTree.Proofs.Traversal.Values
import FeatureTree.Proofs.Traversal.JsonTexts
import FeatureTree.Proofs.Adapter.Settings
import FeatureTree.Proofs.Node.Walk
import FeatureTree.Proofs.Constraint.Members
import FeatureTree.Proofs.CommandLine.Parse
import FeatureTree.Proofs.Node.Values
import FeatureTree.Proofs.Registry.Registrations
import FeatureTree.Proofs.Registry.Table
import FeatureTree.Proofs.Stream.CharStream
import FeatureTree.Proofs.Node.Places
import FeatureTree.Proofs.Node.Spans
import FeatureTree.Proofs.Span.Positions
import FeatureTree.Proofs.Grammar.Runs
import FeatureTree.Proofs.Language.Words
