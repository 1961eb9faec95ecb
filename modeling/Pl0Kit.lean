import Pl0Kit.Ast
import Pl0Kit.Command
import Pl0Kit.Decimal
import Pl0Kit.Eval
import Pl0Kit.Fault
import Pl0Kit.Forth
import Pl0Kit.Frame
import Pl0Kit.Generator.Event
import Pl0Kit.Generator.Targets
import Pl0Kit.Generator.Walk
import Pl0Kit.Graph
import Pl0Kit.Lalr.Build
import Pl0Kit.Lalr.Fault
import Pl0Kit.Lalr.Grammar
import Pl0Kit.Lalr.Item
import Pl0Kit.Lalr.Lookahead
import Pl0Kit.Lalr.Parser
import Pl0Kit.Lalr.RuleText
import Pl0Kit.Lalr.SavedTable
import Pl0Kit.Lalr.Sets
import Pl0Kit.Lalr.Spec
import Pl0Kit.Lalr.States
import Pl0Kit.Lalr.Table
import Pl0Kit.Lexeme
import Pl0Kit.Lexer
import Pl0Kit.Machine.Assemble
import Pl0Kit.Machine.Listing
import Pl0Kit.Machine.Opcode
import Pl0Kit.Machine.Step
import Pl0Kit.Main
import Pl0Kit.Measure.Json
import Pl0Kit.Measure.Round
import Pl0Kit.Measure.Verdict
import Pl0Kit.Ordered
import Pl0Kit.Outline
import Pl0Kit.Parse
import Pl0Kit.Preprocessor.Arguments
import Pl0Kit.Preprocessor.Condition
import Pl0Kit.Preprocessor.Define
import Pl0Kit.Preprocessor.Expand
import Pl0Kit.Preprocessor.Paths
import Pl0Kit.Preprocessor.Reader
import Pl0Kit.Preprocessor.Run
import Pl0Kit.Preprocessor.State
import Pl0Kit.Proofs.Outcome
import Pl0Kit.Proofs.ParseRun
import Pl0Kit.Proofs.Phrase
import Pl0Kit.Reading
import Pl0Kit.Regex.Match
import Pl0Kit.Regex.Parse
import Pl0Kit.Replay
import Pl0Kit.Samples
import Pl0Kit.Scanner.Build
import Pl0Kit.Scanner.CRules
import Pl0Kit.Scanner.Run
import Pl0Kit.Scanner.Saved
import Pl0Kit.Scanner.Token
import Pl0Kit.Site
import Pl0Kit.Text.Chars
import Pl0Kit.Text.HiddenRanges
import Pl0Kit.Text.Lines
import Pl0Kit.Text.Literal
import Pl0Kit.Text.Number
import Pl0Kit.Text.Quoted
import Pl0Kit.Text.SourceLines
import Pl0Kit.Text.Template
import Pl0Kit.Text.WordRanges
import Pl0Kit.Token
import Pl0Kit.Value
import Pl0Kit.Value.Access
import Pl0Kit.Proofs.ParsePhrases
import Pl0Kit.Proofs.Lexical
import Pl0Kit.Proofs.ParseComplete
import Pl0Kit.Proofs.Acceptance
import Pl0Kit.Proofs.Numeral
import Pl0Kit.Proofs.Spelling
import Pl0Kit.Proofs.RoundTrip
import Pl0Kit.Proofs.Generated
import Pl0Kit.Proofs.Labels
import Pl0Kit.Proofs.Listing
import Pl0Kit.Proofs.Assembled
import Pl0Kit.Proofs.Stepping
import Pl0Kit.Proofs.Scopes
import Pl0Kit.Proofs.Resolved
import Pl0Kit.Proofs.Balance
import Pl0Kit.Proofs.Parts
import Pl0Kit.Proofs.Running
import Pl0Kit.Proofs.Safety
import Pl0Kit.Proofs.Evaluation
import Pl0Kit.Proofs.Execution
import Pl0Kit.Proofs.Arithmetic
import Pl0Kit.Proofs.Simulation
import Pl0Kit.Proofs.Linking
import Pl0Kit.Proofs.Correctness
import Pl0Kit.Proofs.Coverage
import Pl0Kit.Proofs.Declarations
import Pl0Kit.Proofs.Emission
import Pl0Kit.Proofs.LabelNames
import Pl0Kit.Proofs.NameResolution
import Pl0Kit.Proofs.Renaming
import Pl0Kit.Proofs.RenamedCode
import Pl0Kit.Proofs.CompiledExpressions
import Pl0Kit.Proofs.LineEnds
import Pl0Kit.Proofs.Agreement
import Pl0Kit.Proofs.ForthMachine
import Pl0Kit.Proofs.ForthText
import Pl0Kit.Proofs.ForthMeaning
import Pl0Kit.Proofs.Lockstep
import Pl0Kit.Proofs.LocalNames
import Pl0Kit.Proofs.PhraseKinds
import Pl0Kit.Proofs.Completion
import Pl0Kit.Proofs.ParseLocal
import Pl0Kit.Proofs.StackEffect
import Pl0Kit.Proofs.SyntaxErrors
import Pl0Kit.Proofs.Products
import Pl0Kit.Proofs.Sums
import Pl0Kit.Proofs.OddTests
import Pl0Kit.Proofs.LexicalScope
import Pl0Kit.Proofs.NestedProcedures
import Pl0Kit.Proofs.DeclaredNames
import Pl0Kit.Proofs.ScopedRuns
import Pl0Kit.Proofs.Assignment
import Pl0Kit.Proofs.TargetWords
import Pl0Kit.Proofs.Numbering
import Pl0Kit.Proofs.LabelClashes
import Pl0Kit.Proofs.Quotations
import Pl0Kit.Proofs.LoopTests
import Pl0Kit.Proofs.Activations
import Pl0Kit.Proofs.StaticLocals
import Pl0Kit.Proofs.ForthEmissions
import Pl0Kit.Proofs.ForthSpacing
import Pl0Kit.Proofs.Contracts
import Pl0Kit.Proofs.ForthGrowth
import Pl0Kit.Proofs.ForthVisits
import Pl0Kit.Proofs.ForthNames
import Pl0Kit.Proofs.ForthRecursion
import Pl0Kit.Proofs.NegativeLiterals
import Pl0Kit.Proofs.FrameStack
import Pl0Kit.Proofs.FrameEffects
import Pl0Kit.Proofs.Places
import Pl0Kit.Proofs.GraphTree
import Pl0Kit.Proofs.OutlineRows
import Pl0Kit.Proofs.OutlineTree
import Pl0Kit.Proofs.ParseLaws
import Pl0Kit.Proofs.Dialogue
import Pl0Kit.Proofs.SinglePass
import Pl0Kit.Proofs.ReplayedTokens
import Pl0Kit.Proofs.FreshLabels
import Pl0Kit.Proofs.AssemblyLayout
