import AsmLint.Json.Decode
import AsmLint.Json.Reader
import AsmLint.Json.Writer
import AsmLint.Table.Basic

/-! Rule tables as JSON. Reading takes what writing gives, and also fields in another order, unknown
fields among them, and a table written as a list of its fields. -/

namespace AsmLint

def Dict.toJson {α : Type} (encode : α → Json) (dict : Dict α) : Json :=
  .object (dict.entries.map fun (key, value) => (key, encode value))

namespace Category

def tag : Category → String
  | .quoted => "anyString"
  | .variableName => "anyVariable"
  | .labelName => "anyLabel"
  | .byte => "any8BitNumber"
  | .word => "any16BitNumber"
  | .displacement => "anySigned16BitNumber"
  | .anything => "any"

def ofTag? (tag : String) : Option Category := all.find? fun category => category.tag == tag

theorem ofTag?_tag (category : Category) : ofTag? category.tag = some category := by
  cases category <;> rfl

def toJson (category : Category) : Json := .string category.tag

def ofJson? (json : Json) : Option Category := json.asTag?.bind ofTag?

end Category

namespace LegendEntry

def toJson : LegendEntry → Json
  | .tokens spellings => .object [("tokens", .ofStrings spellings)]
  | .categories kinds => .object [("categories", .list (kinds.map Category.toJson))]

def ofJson? : Json → Option LegendEntry
  | .object [("tokens", spellings)] => (spellings.asList? Json.asString?).map .tokens
  | .object [("categories", kinds)] => (kinds.asList? Category.ofJson?).map .categories
  | _ => none

end LegendEntry

def Legend.ofJson? (json : Json) : Option Legend := json.asDict? LegendEntry.ofJson?

namespace RuleTable

def toJson (table : RuleTable) : Json :=
  .object [
    ("schemaVersion", .string table.schemaVersion),
    ("name", .string table.name),
    ("legend", table.legend.toJson LegendEntry.toJson),
    ("instructions", table.instructions.toJson Json.ofStrings),
    ("directives", table.directives.toJson Json.ofStrings),
    ("declarationKeywords", .ofStrings table.declarationKeywords)]

def fields : List String :=
  ["schemaVersion", "name", "legend", "instructions", "directives", "declarationKeywords"]

def ofParts? (schemaVersion : Option Json) (name legend instructions directives : Json)
    (declarationKeywords : Option Json) : Option RuleTable := do
  return {
    schemaVersion := ← (schemaVersion.getD (.string currentSchema)).asString?
    name := ← name.asString?
    legend := ← Legend.ofJson? legend
    instructions := ← instructions.asDict? (Json.asList? Json.asString?)
    directives := ← directives.asDict? (Json.asList? Json.asString?)
    declarationKeywords := ← (declarationKeywords.getD (.list [])).asList? Json.asString? }

def ofJson? : Json → Option RuleTable
  | .list [schemaVersion, name, legend, instructions, directives] =>
    ofParts? schemaVersion name legend instructions directives none
  | .list [schemaVersion, name, legend, instructions, directives, declarationKeywords] =>
    ofParts? schemaVersion name legend instructions directives declarationKeywords
  | .object members =>
    if Json.distinctFields fields members then do
      ofParts? (Json.member? members "schemaVersion") (← Json.member? members "name")
        (← Json.member? members "legend") (← Json.member? members "instructions")
        (← Json.member? members "directives") (Json.member? members "declarationKeywords")
    else none
  | _ => none

def read? (text : String) : Option RuleTable := (Json.read text).bind ofJson?

def write (table : RuleTable) : String := table.toJson.compact

end RuleTable

def UndeclaredKey.toJson (undeclared : UndeclaredKey) : Json :=
  .object [
    ("mnemonic", .string undeclared.mnemonic),
    ("rule", .string undeclared.rule),
    ("key", .string undeclared.key)]

end AsmLint
