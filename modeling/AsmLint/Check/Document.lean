import AsmLint.Check.Balance
import AsmLint.Check.Duplicate
import AsmLint.Check.Reference
import AsmLint.Check.Usage
import AsmLint.Text.Lines

/-! Checks a whole document: each line for usage and then for references, in line order; then
repeated definitions; then the balance of blocks. -/

namespace AsmLint

structure Report where
  issues : List Diagnostic
  symbols : SymbolTable
deriving DecidableEq

def Report.ok (report : Report) : Bool := !report.issues.any Diagnostic.isError

def checkLine (grammar : Grammar) (symbols : SymbolTable) (line : Nat) (raw : List Char) :
    List Diagnostic :=
  let code := codePart raw
  if (trim code).isEmpty then []
  else (checkUsage grammar line code).toList ++ checkReferences grammar symbols line code

def checkLines (grammar : Grammar) (symbols : SymbolTable) (lines : List (List Char)) :
    List Diagnostic :=
  lines.zipIdx.flatMap fun (raw, line) => checkLine grammar symbols line raw

def validateLines (grammar : Grammar) (lines : List (List Char)) : Report :=
  let symbols := SymbolTable.build grammar lines
  { issues := checkLines grammar symbols lines ++ checkDuplicates symbols ++
      checkBalance symbols.nesting
    symbols }

def validate (grammar : Grammar) (text : String) : Report :=
  validateLines grammar (splitLines text.toList)

end AsmLint
