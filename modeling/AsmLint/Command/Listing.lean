import AsmLint.Check.Json
import AsmLint.Dialect
import AsmLint.Symbols.Json
import AsmLint.Text.Decimal

/-! What the commands print. Listings are lists of lines; JSON output has the keys of every object
in order, except for a symbol table, which keeps the order of its fields. -/

namespace AsmLint

def padRight (width : Nat) (text : String) : String :=
  text ++ String.ofList (List.replicate (width - text.length) ' ')

namespace SymbolTable

def siteText (site : Site) : String := Nat.repr (site.line + 1) ++ ":" ++ Nat.repr (site.column + 1)

def recordLine (width : Nat) (record : SymbolRecord) : String :=
  "  " ++ padRight width record.name ++ "  " ++
    String.intercalate ", " (record.definitions.map siteText) ++
    (if record.definitions.length > 1 then "  (duplicate)" else "")

/-- Names are padded to the byte length of the longest one. -/
def recordLines (title : String) (records : List SymbolRecord) : List String :=
  if records.isEmpty then []
  else
    let width := (records.map fun record => record.name.utf8ByteSize).foldl max 0
    (title ++ ":") :: records.map (recordLine width)

def lines (table : SymbolTable) : List String :=
  recordLines "labels" table.labels.records ++ recordLines "variables" table.vars.records ++
    (if table.declarations.names.isEmpty then []
      else ["declarations: " ++ String.intercalate ", " table.declarations.names]) ++
    ["end of file: brace depth " ++ intText table.nesting.braceDepth ++ ", macro depth " ++
      Nat.repr table.nesting.macroDepth]

end SymbolTable

def explanationJson (id : String) : Json :=
  .object [("id", .string id), ("explanation", .ofOption .string (explain? id))]

def explanationLine (id : String) : String :=
  match explain? id with
  | some text => "\x1b[36m" ++ id ++ "\x1b[0m: " ++ text
  | none => id ++ ": (no explanation available)"

namespace Slot

def toJson (slot : Slot) : Json :=
  .object [("kind", .string slot.kind), ("detail", .string slot.describe)]

def line (slot : Slot) : String := "      " ++ padRight 13 slot.kind ++ " " ++ slot.describe

end Slot

namespace Usage

def ruleJson : Except RuleError Rule → Json
  | .ok rule => .object [
      ("rule", .string rule.text),
      ("placeholders", .list (rule.slots.map Slot.toJson))]
  | .error error => .object [
      ("rule", .null),
      ("placeholders", .list []),
      ("error", .string error.message)]

def ruleLines : Except RuleError Rule → List String
  | .ok rule => ("  " ++ rule.text) :: rule.slots.map Slot.line
  | .error error => ["  <invalid rule>: " ++ error.message]

def toJson (usage : Usage) (dialect : Dialect) : Json :=
  .object [
    ("mnemonic", .string usage.mnemonic),
    ("dialect", .string dialect.name),
    ("variants", .list (usage.rules.map ruleJson))]

def lines (usage : Usage) (dialect : Dialect) : List String :=
  (usage.mnemonic ++ " (" ++ Nat.repr usage.rules.length ++ " variant(s), " ++ dialect.name ++
      ")") ::
    usage.rules.flatMap ruleLines

def errors (usage : Usage) : List String :=
  usage.rules.filterMap fun rule =>
    match rule with
    | .ok _ => none
    | .error error => some (usage.mnemonic ++ ": " ++ error.message)

end Usage

namespace Grammar

def ruleErrors (grammar : Grammar) : List String := grammar.usages.values.flatMap Usage.errors

def sound (grammar : Grammar) : Bool :=
  grammar.table.undeclared.isEmpty && grammar.ruleErrors.isEmpty

def toJson (grammar : Grammar) (dialect : Dialect) : Json :=
  .object [
    ("ok", .bool grammar.sound),
    ("name", .string grammar.table.name),
    ("schemaVersion", .string grammar.table.schemaVersion),
    ("dialect", .string dialect.name),
    ("mnemonics", .ofNat grammar.usages.size),
    ("declarationKeywords", .ofStrings grammar.declarationKeywords),
    ("undeclared", .list (grammar.table.undeclared.map UndeclaredKey.toJson)),
    ("ruleErrors", .ofStrings grammar.ruleErrors)]

def undeclaredLine (undeclared : UndeclaredKey) : String :=
  "  undeclared placeholder %" ++ undeclared.key ++ " in " ++ undeclared.mnemonic ++ ": " ++
    undeclared.rule

def lines (grammar : Grammar) : List String :=
  [grammar.table.name ++ " (schema " ++ grammar.table.schemaVersion ++ "): " ++
      Nat.repr grammar.usages.size ++ " mnemonics, " ++ Nat.repr grammar.table.legend.size ++
      " legend keys",
    "  declaration keywords: " ++ String.intercalate ", " grammar.declarationKeywords] ++
    grammar.table.undeclared.map undeclaredLine ++
    grammar.ruleErrors.map (fun error => "  rule error: " ++ error) ++
    (if grammar.sound then ["tables ok"] else [])

end Grammar

end AsmLint
