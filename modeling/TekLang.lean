import TekLang.Span
import TekLang.Diagnostic
import TekLang.Token
import TekLang.Token.Lexeme
import TekLang.Token.Layout
import TekLang.Node.Kind
import TekLang.Node.Basic
import TekLang.Node.Descendants
import TekLang.Precedence
import TekLang.Grammar.Fault
import TekLang.Grammar.Stream
import TekLang.Grammar.Type
import TekLang.Grammar.Expression
import TekLang.Grammar.Declaration
import TekLang.Grammar.Tape
import TekLang.Grammar.Program
import TekLang.Signature
import TekLang.Scope.Table
import TekLang.Scope.Tree
import TekLang.Scope.Build
import TekLang.Walk
import TekLang.Lint.Config
import TekLang.Lint.Rule
import TekLang.Lint.Redeclaration
import TekLang.Lint.Undefined
import TekLang.Lint.Placement
import TekLang.Lint
import TekLang.Check
import TekLang.Source.Entry
import TekLang.Source.Path
import TekLang.Source.Load
import TekLang.CommandLine
import TekLang.Main
import TekLang.Proofs.Node.Bare
import TekLang.Proofs.Grammar.Run
import TekLang.Proofs.Grammar.Grouping
import TekLang.Proofs.Grammar.ExpressionRoundTrip
import TekLang.Proofs.Grammar.Production
import TekLang.Proofs.Grammar.Derivation
import TekLang.Proofs.Grammar.Movement
import TekLang.Proofs.Grammar.Composition
import TekLang.Proofs.Grammar.Yield
import TekLang.Proofs.Grammar.Content
import TekLang.Proofs.Grammar.Conservation
import TekLang.Proofs.Scope.Region
import TekLang.Proofs.Scope.Steps
import TekLang.Proofs.Scope.Growth
import TekLang.Proofs.Grammar.Fields
import TekLang.Proofs.Grammar.Conformance
import TekLang.Proofs.Grammar.Grammatical
import TekLang.Proofs.Scope.Agreement
import TekLang.Proofs.Scope.Tables
import TekLang.Proofs.Token.Names
import TekLang.Proofs.Scope.Lookup
import TekLang.Proofs.Scope.Names
import TekLang.Proofs.Lint.Resolution
import TekLang.Proofs.Token.Lines
import TekLang.Proofs.Token.LaidOut
import TekLang.Proofs.Token.Rereading
import TekLang.Proofs.Token.Rendering
import TekLang.Proofs.Scope.Refusal
import TekLang.Proofs.Grammar.Arrangement
import TekLang.Proofs.Scope.Conflict
import TekLang.Proofs.Scope.Mirror
import TekLang.Proofs.Scope.Paths
import TekLang.Proofs.Token.Order
import TekLang.Proofs.Grammar.Nesting
import TekLang.Proofs.Grammar.Blame
import TekLang.Proofs.Grammar.Rounds
import TekLang.Proofs.Grammar.Progress
import TekLang.Proofs.Token.Coverage
import TekLang.Proofs.Node.Unplaced
import TekLang.Proofs.Token.Joining
import TekLang.Proofs.Grammar.Balance
import TekLang.Proofs.Grammar.Echo
import TekLang.Proofs.Grammar.EchoExpression
import TekLang.Proofs.Scope.Contents
import TekLang.Proofs.Lint.Shadowing
import TekLang.Proofs.Grammar.EchoStatement
import TekLang.Proofs.Grammar.Concatenation
import TekLang.Proofs.Grammar.Restoring
import TekLang.Proofs.Grammar.ProgramRoundTrip
import TekLang.Proofs.Grammar.Printing
import TekLang.Proofs.Check
import TekLang.Proofs.Lint.Reports
import TekLang.Proofs.Lint.Independence
import TekLang.Proofs.Lint.Methods
import TekLang.Proofs.Scope.Surroundings
import TekLang.Proofs.Lint.Clashes
import TekLang.Proofs.Token.Identifiers
import TekLang.Proofs.Renaming.Parsing
import TekLang.Proofs.Renaming.Reports
import TekLang.Proofs.Grammar.Restart
import TekLang.Proofs.Grammar.Resumption
import TekLang.Proofs.Grammar.Levels
import TekLang.Proofs.Grammar.GenericCall
import TekLang.Proofs.Grammar.Lookahead
import TekLang.Proofs.Scope.Isolation
import TekLang.Proofs.Scope.Registry
import TekLang.Proofs.Signature.Overloads
import TekLang.Proofs.Token.Noise
import TekLang.Proofs.Token.Indentation
import TekLang.Proofs.Token.Compact
import TekLang.Proofs.Signature.Spelling
import TekLang.Proofs.Signature.TypeRoundTrip
import TekLang.Proofs.Grammar.Places
import TekLang.Proofs.Grammar.Respelling
import TekLang.Proofs.Grammar.Tape
import TekLang.Proofs.Grammar.Log
import TekLang.Proofs.Grammar.Numbering
import TekLang.Proofs.Grammar.EndOfInput
import TekLang.Proofs.Token.Location
import TekLang.Proofs.Lint.Control
import TekLang.Proofs.Lint.Findings
import TekLang.Proofs.Lint.Once
import TekLang.Proofs.Source.Tree
import TekLang.Proofs.Source.Path
import TekLang.Proofs.Source.Load
