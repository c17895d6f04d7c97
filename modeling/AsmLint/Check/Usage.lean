import AsmLint.Diagnostic.Basic
import AsmLint.Grammar
import AsmLint.Source.Statement

/-! Checks an instruction against the usage rules of its mnemonic. A line that starts with no known
mnemonic is not looked at. -/

namespace AsmLint

inductive Mismatch where
  | mnemonic (head text : String)
  | operandsGiven (text : String)
  | operandCount (expected given : Nat) (text : String)
  | refused (operand : List Char) (text : String)
  | invalidRule (error : RuleError)
deriving DecidableEq, Repr

def Mismatch.reason : Mismatch → String
  | .mnemonic head text => "Expected mnemonic " ++ head ++ " (" ++ text ++ ")"
  | .operandsGiven text => "Expected no operands (" ++ text ++ ")"
  | .operandCount expected given text =>
    "Expected " ++ Nat.repr expected ++ " operand(s), got " ++ Nat.repr given ++ " (" ++ text ++ ")"
  | .refused operand text =>
    "Invalid operand '" ++ String.ofList operand ++ "' for pattern: " ++ text
  | .invalidRule error => error.message

/-- The operands a rule is given: the whole operand text as one where the policy says so and the
rule has a free-form slot, otherwise the pieces between commas. -/
def operandsFor (policy : OperandPolicy) (quoted : List Extent) (instruction : Instruction)
    (rule : Rule) : List (List Char) :=
  if policy.wholeOperand && rule.freeForm then
    if instruction.operandText.isEmpty then [] else [instruction.operandText]
  else operands quoted instruction

def refusedOperand? : List Slot → List (List Char) → Option (List Char)
  | slot :: slots, operand :: operands =>
    if slot.accepts operand then refusedOperand? slots operands else some operand
  | _, _ => none

/-- A width on either side has to be the same on both. -/
def headMatches (rule : Rule) (mnemonic : List Char) : Bool :=
  let written := String.ofList (upper mnemonic)
  !(rule.head.toList.contains '.' || mnemonic.contains '.') || rule.head == written

def mismatch? (policy : OperandPolicy) (quoted : List Extent) (instruction : Instruction)
    (rule : Rule) : Option Mismatch :=
  if !headMatches rule instruction.mnemonic then some (.mnemonic rule.head rule.text)
  else if rule.slots.isEmpty then
    if instruction.operandText.isEmpty then none else some (.operandsGiven rule.text)
  else
    let operands := operandsFor policy quoted instruction rule
    if operands.length != rule.slots.length then
      some (.operandCount rule.slots.length operands.length rule.text)
    else (refusedOperand? rule.slots operands).map fun operand => .refused operand rule.text

def ruleMismatch? (policy : OperandPolicy) (quoted : List Extent) (instruction : Instruction) :
    Except RuleError Rule → Option Mismatch
  | .ok rule => mismatch? policy quoted instruction rule
  | .error error => some (.invalidRule error)

namespace Usage

def variantTexts (usage : Usage) : List String :=
  usage.rules.map fun rule =>
    match rule with
    | .ok rule => rule.text
    | .error _ => "<invalid rule>"

def mismatches? (usage : Usage) (policy : OperandPolicy) (quoted : List Extent)
    (instruction : Instruction) : Option (List Mismatch) :=
  usage.rules.mapM (ruleMismatch? policy quoted instruction)

end Usage

def usageSpan (line : Nat) (code : List Char) (instruction : Instruction) : Span :=
  if instruction.operandText.isEmpty then ⟨line, instruction.column, instruction.stop⟩
  else ⟨line, instruction.operandColumn, code.length⟩

def usageFinding (line : Nat) (code : List Char) (instruction : Instruction) (usage : Usage)
    (mismatches : List Mismatch) : Diagnostic :=
  let wording := if usage.rules.length = 1 then .single else .multiple
  .ofCode .invalidUsage wording (usageSpan line code instruction) [
    ("mnemonic", usage.mnemonic),
    ("reason", (mismatches.head?.map Mismatch.reason).getD ""),
    ("variants", String.intercalate " | " usage.variantTexts)]

def checkUsage (grammar : Grammar) (line : Nat) (code : List Char) : Option Diagnostic :=
  (Instruction.of? code).bind fun instruction =>
    (grammar.lookup instruction.name).bind fun usage =>
      (usage.mismatches? grammar.policy (literals code) instruction).map
        (usageFinding line code instruction usage)

end AsmLint
