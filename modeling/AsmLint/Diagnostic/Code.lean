import AsmLint.Diagnostic.Template

/-! The kinds of finding that can be reported: their identifiers, how grave they are, how they are
worded and how they are explained. -/

namespace AsmLint

inductive Severity where
  | error
  | warn
  | info
deriving DecidableEq, Repr

namespace Severity

def all : List Severity := [.error, .warn, .info]

def name : Severity → String
  | .error => "error"
  | .warn => "warn"
  | .info => "info"

def ofName? (name : String) : Option Severity := all.find? fun severity => severity.name == name

end Severity

inductive Code where
  | duplicateDefinition
  | undefinedSymbol
  | invalidUsage
  | unbalancedBlock
  | unterminatedMacro
deriving DecidableEq, Repr

inductive Wording where
  | standard
  | single
  | multiple
deriving DecidableEq, Repr

namespace Wording

def all : List Wording := [.standard, .single, .multiple]

def name : Wording → String
  | .standard => "default"
  | .single => "single"
  | .multiple => "multiple"

def ofName? (name : String) : Option Wording := all.find? fun wording => wording.name == name

end Wording

namespace Code

def all : List Code :=
  [.duplicateDefinition, .undefinedSymbol, .invalidUsage, .unbalancedBlock, .unterminatedMacro]

def id : Code → String
  | .duplicateDefinition => "ASM1001"
  | .undefinedSymbol => "ASM1002"
  | .invalidUsage => "ASM2001"
  | .unbalancedBlock => "ASM3001"
  | .unterminatedMacro => "ASM3002"

def ofId? (id : String) : Option Code := all.find? fun code => code.id == id

theorem ofId?_id (code : Code) : ofId? code.id = some code := by cases code <;> rfl

def severity : Code → Severity
  | .duplicateDefinition => .error
  | .undefinedSymbol => .error
  | .invalidUsage => .error
  | .unbalancedBlock => .error
  | .unterminatedMacro => .error

def explanation : Code → String
  | .duplicateDefinition =>
    "A label or variable name must be defined exactly once per document. Every definition after " ++
      "the first is reported at the position of the repeated name."
  | .undefinedSymbol =>
    "Identifier-shaped tokens outside comments and string literals must name a mnemonic, a " ++
      "register, a condition code, or a symbol defined somewhere in the document (a label, a " ++
      "variable, or a name introduced by a declaration such as EXTERN or SECTION). Forward " ++
      "references are allowed."
  | .invalidUsage =>
    "Each mnemonic declares one or more usage variants (for example `LD %r, %nn`). A line is " ++
      "accepted when its operand count and every operand satisfy at least one variant. " ++
      "Otherwise the operand region is reported with the failing reason or the list of allowed variants."
  | .unbalancedBlock =>
    "The number of `\x7b` and `\x7d` characters in the code part of the document must match. A " ++
      "non-zero net depth at end of document means a scoped block was left open or closed " ++
      "too often."
  | .unterminatedMacro =>
    "Every line starting with MACRO opens a macro body that must be closed by a line starting " ++
      "with ENDM before the end of the document."

def template? : Code → Wording → Option String
  | .duplicateDefinition, .standard => some "Duplicate definition: \x7bkind\x7d '\x7bname\x7d'"
  | .undefinedSymbol, .standard => some "Reference to an undefined symbol: '\x7bname\x7d'"
  | .invalidUsage, .single => some "Invalid usage of \x7bmnemonic\x7d: \x7breason\x7d"
  | .invalidUsage, .multiple =>
    some "Invalid usage of \x7bmnemonic\x7d. Allowed variant(s): \x7bvariants\x7d"
  | .unbalancedBlock, .standard =>
    some "Scoped block has unbalanced braces (net depth \x7bdepth\x7d)"
  | .unterminatedMacro, .standard => some "MACRO block not closed (need ENDM)"
  | _, _ => none

def message (code : Code) (wording : Wording) (values : Dict String) : String :=
  match code.template? wording with
  | some template => String.ofList (fillTemplate values template.toList)
  | none => ""

end Code

def explain? (id : String) : Option String := (Code.ofId? id).map Code.explanation

end AsmLint
