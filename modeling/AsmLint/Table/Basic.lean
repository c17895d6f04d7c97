import AsmLint.Collection.Dict
import AsmLint.Rule.Unit

/-! Rule tables: the usage rules of a family of assemblers as plain data. Rules are kept as they are
written; a key that a rule mentions and the legend lacks is found by `undeclared`. -/

namespace AsmLint

inductive Category where
  | quoted
  | variableName
  | labelName
  | byte
  | word
  | displacement
  | anything
deriving DecidableEq, Repr

namespace Category

def all : List Category :=
  [.quoted, .variableName, .labelName, .byte, .word, .displacement, .anything]

def describe : Category → String
  | .quoted => "string"
  | .variableName => "variable"
  | .labelName => "label"
  | .byte => "8-bit number"
  | .word => "16-bit number"
  | .displacement => "signed 16-bit number"
  | .anything => "any"

end Category

inductive LegendEntry where
  | tokens (spellings : List String)
  | categories (kinds : List Category)
deriving DecidableEq

namespace LegendEntry

def spellings : LegendEntry → List String
  | .tokens spellings => spellings
  | .categories _ => []

def kinds : LegendEntry → List Category
  | .tokens _ => []
  | .categories kinds => kinds

def freeForm (entry : LegendEntry) : Bool := entry.kinds.contains .anything

end LegendEntry

abbrev Legend := Dict LegendEntry

structure RuleTable where
  schemaVersion : String
  name : String
  legend : Legend
  instructions : Dict (List String)
  directives : Dict (List String)
  /-- Words whose first operand names a symbol without defining it. -/
  declarationKeywords : List String
deriving DecidableEq

structure UndeclaredKey where
  mnemonic : String
  rule : String
  key : String
deriving DecidableEq, Repr

namespace RuleTable

def currentSchema : String := "1.0.0"

def rulesFor? (table : RuleTable) (mnemonic : String) : Option (List String) :=
  (table.instructions.get? mnemonic).or (table.directives.get? mnemonic)

def mnemonics (table : RuleTable) : List String := table.instructions.keys ++ table.directives.keys

def legendTokens (table : RuleTable) : List String :=
  table.legend.values.flatMap LegendEntry.spellings

def undeclaredIn (legend : Legend) (rule : String) : List String :=
  let keys := (placeholderKeys rule.toList).map String.ofList
  (keys.filter fun key => !legend.contains key).eraseDups

def undeclared (table : RuleTable) : List UndeclaredKey :=
  (table.instructions.entries ++ table.directives.entries).flatMap fun (mnemonic, rules) =>
    rules.flatMap fun rule => (undeclaredIn table.legend rule).map fun key => ⟨mnemonic, rule, key⟩

end RuleTable

end AsmLint
