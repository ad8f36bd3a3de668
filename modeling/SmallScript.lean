import SmallScript.Text
import SmallScript.Decimal
import SmallScript.Number
import SmallScript.Symbol
import SmallScript.Token
import SmallScript.Fault
import SmallScript.Token.Scan
import SmallScript.Operator
import SmallScript.Node
import SmallScript.Grammar.Parser
import SmallScript.Grammar.Rules
import SmallScript.Value
import SmallScript.Console
import SmallScript.Machine
import SmallScript.Evaluation
import SmallScript.Script
import SmallScript.CommandLine
import SmallScript.Main
import SmallScript.Proofs.Grammar.Derivation
import SmallScript.Proofs.Grammar.Runs
import SmallScript.Proofs.Grammar.Comparison
import SmallScript.Proofs.Grammar.Traversal
import SmallScript.Proofs.Grammar.Soundness
import SmallScript.Proofs.Grammar.Completeness
import SmallScript.Proofs.Grammar.Nesting
import SmallScript.Proofs.Evaluation.Likeness
import SmallScript.Proofs.Evaluation.TwoRuns
import SmallScript.Proofs.Evaluation.ScopeDiscipline
import SmallScript.Proofs.Evaluation.LexicalScoping
import SmallScript.Proofs.Evaluation.Parts
import SmallScript.Proofs.Evaluation.Budget
import SmallScript.Proofs.Token.LongestMatch
import SmallScript.Proofs.Token.LineBreaks
import SmallScript.Proofs.Evaluation.Reached
import SmallScript.Proofs.Evaluation.Termination
import SmallScript.Proofs.Grammar.Shape
import SmallScript.Proofs.Evaluation.Placement
import SmallScript.Proofs.Evaluation.Output
import SmallScript.Proofs.Script.LineMode
import SmallScript.Proofs.Script.CallLimit
import SmallScript.Proofs.Grammar.Lookahead
import SmallScript.Proofs.Grammar.MoreRoom
import SmallScript.Proofs.Grammar.Diagnosis
import SmallScript.Proofs.Grammar.TreeLines
import SmallScript.Proofs.Evaluation.Renumbered
import SmallScript.Proofs.Script.LineNumbers
import SmallScript.Proofs.Evaluation.OpenCalls
import SmallScript.Proofs.Script.FaultLines
import SmallScript.Proofs.Evaluation.CallBalance
import SmallScript.Proofs.Script.OutputLimit
import SmallScript.Proofs.Evaluation.DeadCode
import SmallScript.Proofs.Script.ScopingAgreement
import SmallScript.Proofs.Evaluation.Expressions
import SmallScript.Proofs.Grammar.Height
import SmallScript.Proofs.Token.Layout
import SmallScript.Proofs.Grammar.Rendering
import SmallScript.Proofs.Grammar.Boundaries
import SmallScript.Proofs.Grammar.StartingDepth
import SmallScript.Proofs.Grammar.ElseIf
import SmallScript.Proofs.Grammar.LevelOpening
import SmallScript.Proofs.Grammar.OneTokenAhead
import SmallScript.Proofs.Number.Encoding
import SmallScript.Proofs.Value.TextOrder
import SmallScript.Proofs.Number.ReadBack
import SmallScript.Proofs.Value.TypedLine
