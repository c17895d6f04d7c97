import AsmLint.Rule.Slot
import AsmLint.Table.Basic
import AsmLint.Text.Space

/-! Usage rules: the first word of a rule and a slot for each operand. A key that the legend lacks
stands for itself. A rule fails to compile only if it has no word: that the matcher of a unit with
fixed parts cannot be built, which a limit on its size would bring about, is left out. -/

namespace AsmLint

structure OperandPolicy where
  /-- A rule with a free-form slot takes the whole operand text as one operand. -/
  wholeOperand : Bool
  /-- A unit with fixed parts around its key is matched part by part; otherwise it takes any text.
  -/
  compositePatterns : Bool
deriving DecidableEq, Repr

inductive RuleError where
  | empty
deriving DecidableEq, Repr

def RuleError.message : RuleError → String
  | .empty => "usage rule is empty"

structure Rule where
  text : String
  head : String
  slots : List Slot
deriving DecidableEq

def upperSet (tokens : List String) : NameSet := NameSet.ofList (tokens.map upperName)

def optionSet (body : List Char) : NameSet :=
  NameSet.ofList ((spacedWords body).map fun word => String.ofList (upper word))

def optionBody? : List Char → Option (List Char)
  | '%' :: '[' :: rest => if rest.getLast? = some ']' then some rest.dropLast else none
  | _ => none

/-- A unit cut at its first percent sign: the text before it, the key, and the text after the key.
-/
structure KeyedUnit where
  before : List Char
  key : List Char
  after : List Char
deriving DecidableEq, Repr

def KeyedUnit.of? (unit : List Char) : Option KeyedUnit :=
  match unit.dropWhile (· != '%') with
  | [] => none
  | _ :: rest =>
    if rest.head?.any isWordChar then
      some ⟨unit.takeWhile (· != '%'), rest.takeWhile isWordChar, rest.dropWhile isWordChar⟩
    else none

def Filling.ofEntry (key : List Char) : Option LegendEntry → Filling
  | some (.tokens spellings) => .tokens (upperSet spellings)
  | some (.categories _) => .unrestricted
  | none => .word (String.ofList (upper key))

def Slot.ofKey (key : List Char) : Option LegendEntry → Slot
  | some (.tokens spellings) => .registers (String.ofList key) (upperSet spellings)
  | some (.categories kinds) => .any (String.ofList key) (LegendEntry.freeForm (.categories kinds))
  | none => .literal (String.ofList (upper key))

def Slot.ofUnit (legend : Legend) (policy : OperandPolicy) (unit : List Char) : Slot :=
  match optionBody? unit with
  | some body => .options (optionSet body)
  | none =>
    match KeyedUnit.of? unit with
    | none => .literal (String.ofList (upper unit))
    | some ⟨before, key, after⟩ =>
      let entry := legend.get? (String.ofList key)
      if before.isEmpty && after.isEmpty then .ofKey key entry
      else if policy.compositePatterns then
        .pattern (String.ofList unit) before after (.ofEntry key entry)
      else .any (String.ofList unit) false

def dropTrailingCommas (unit : List Char) : List Char :=
  (unit.reverse.dropWhile (· == ',')).reverse

def isSeparatorUnit (unit : List Char) : Bool := unit.all fun c => c == ',' || c == '(' || c == ')'

def operandUnits (rest : List (List Char)) : List (List Char) :=
  (rest.map dropTrailingCommas).filter fun unit => !isSeparatorUnit unit

namespace Rule

def compile (legend : Legend) (policy : OperandPolicy) (text : String) : Except RuleError Rule :=
  match units text.toList with
  | [] => .error .empty
  | head :: rest =>
    .ok ⟨text, String.ofList (upper head), (operandUnits rest).map (Slot.ofUnit legend policy)⟩

def freeForm (rule : Rule) : Bool := rule.slots.any Slot.freeForm

end Rule

end AsmLint
