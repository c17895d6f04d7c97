import AsmLint.Diagnostic.Basic
import AsmLint.Symbols.Table

/-! Reports every definition of a name but its first. -/

namespace AsmLint

def firstLine (record : SymbolRecord) (site : Site) : Nat :=
  match record.definitions with
  | first :: _ => first.line
  | [] => site.line

def duplicateFinding (record : SymbolRecord) (site : Site) : Diagnostic :=
  .ofCode .duplicateDefinition .standard
    ⟨site.line, site.column, site.column + record.name.length⟩ [
    ("kind", record.kind.describe),
    ("name", record.name),
    ("first_line", Nat.repr (firstLine record site))]

def checkDuplicates (symbols : SymbolTable) : List Diagnostic :=
  symbols.redefinitions.map fun (record, site) => duplicateFinding record site

end AsmLint
