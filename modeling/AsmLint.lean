import AsmLint.Main
import AsmLint.Proofs.Names
import AsmLint.Proofs.Literals
import AsmLint.Proofs.Definitions
import AsmLint.Proofs.Registry
import AsmLint.Proofs.Nesting
import AsmLint.Proofs.SymbolTable
import AsmLint.Proofs.Duplicates
import AsmLint.Proofs.Findings
import AsmLint.Proofs.Vocabulary
import AsmLint.Proofs.References
import AsmLint.Proofs.Statement
import AsmLint.Proofs.Usage
import AsmLint.Proofs.Verdict
import AsmLint.Proofs.LineIndex
import AsmLint.Proofs.Positions
import AsmLint.Proofs.ReportOrder
import AsmLint.Proofs.SymbolAnalysis
import AsmLint.Proofs.Policies
import AsmLint.Proofs.BeforeQuote
import AsmLint.Proofs.LiteralContents
import AsmLint.Proofs.DeclaredKeys
import AsmLint.Proofs.LaterLines
import AsmLint.Proofs.LineOrder
import AsmLint.Proofs.RuleInstances
import AsmLint.Proofs.TableInvariant
import AsmLint.Proofs.ResolvedNames
import AsmLint.Proofs.JsonRecords
import AsmLint.Proofs.DiagnosticText
import AsmLint.Proofs.TableText
import AsmLint.Proofs.LineEnds
import AsmLint.Proofs.ByteText
import AsmLint.Proofs.Indentation
import AsmLint.Proofs.ByteScans
import AsmLint.Proofs.ByteReads
import AsmLint.Proofs.ByteRules
import AsmLint.Proofs.ByteReport
import AsmLint.Proofs.BlockBalance
import AsmLint.Proofs.LetterCase
import AsmLint.Proofs.OperandSpan
import AsmLint.Proofs.TableLookup
import AsmLint.Proofs.Keywords
import AsmLint.Proofs.OptionLists
import AsmLint.Proofs.UnitKeys
import AsmLint.Proofs.SatisfiableRules
import AsmLint.Proofs.BuiltInRules
import AsmLint.Proofs.LinePlaces
import AsmLint.Proofs.QuotePairs
import AsmLint.Proofs.TemplateParts
import AsmLint.Proofs.NamesInLiterals
import AsmLint.Proofs.UnitPlaces
