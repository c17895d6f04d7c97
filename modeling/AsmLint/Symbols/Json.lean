import AsmLint.Json.Writer
import AsmLint.Symbols.Table

/-! Symbol tables as JSON. -/

namespace AsmLint

def Site.toJson (site : Site) : Json :=
  .object [("line", .ofNat site.line), ("column", .ofNat site.column)]

def SymbolRecord.toJson (record : SymbolRecord) : Json :=
  .object [
    ("name", .string record.name),
    ("kind", .string record.kind.describe),
    ("definitions", .list (record.definitions.map Site.toJson))]

def Nesting.toJson (nesting : Nesting) : Json :=
  .object [
    ("brace_depth", .int nesting.braceDepth),
    ("macro_depth", .ofNat nesting.macroDepth)]

def SymbolTable.toJson (table : SymbolTable) : Json :=
  .object [
    ("labels", .list (table.labels.records.map SymbolRecord.toJson)),
    ("variables", .list (table.vars.records.map SymbolRecord.toJson)),
    ("declarations", .ofStrings table.declarations.names),
    ("final_state", table.nesting.toJson)]

end AsmLint
