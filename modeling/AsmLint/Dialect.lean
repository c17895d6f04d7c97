import AsmLint.Grammar

/-! Dialects that can be chosen by name. Both use the same table and differ in how operands are
read. -/

namespace AsmLint

inductive Dialect where
  | z80
  | legacy
deriving DecidableEq, Repr

structure UnknownDialect where
  name : String
deriving DecidableEq, Repr

namespace Dialect

def all : List Dialect := [.z80, .legacy]

def name : Dialect → String
  | .z80 => "z80"
  | .legacy => "z80-legacy"

def tableName (_dialect : Dialect) : String := "z80"

def policy : Dialect → OperandPolicy
  | .z80 => ⟨true, true⟩
  | .legacy => ⟨false, false⟩

def ofName (name : String) : Except UnknownDialect Dialect :=
  match all.find? fun dialect => sameNameIgnoringCase dialect.name name with
  | some dialect => .ok dialect
  | none => .error ⟨name⟩

theorem ofName_name (dialect : Dialect) : ofName dialect.name = .ok dialect := by
  cases dialect <;> rfl

end Dialect

def UnknownDialect.message (error : UnknownDialect) : String :=
  "unknown dialect '" ++ error.name ++ "' (expected one of: " ++
    String.intercalate ", " (Dialect.all.map Dialect.name) ++ ")"

def z80Grammar : Grammar := Grammar.ofTable Z80.table Dialect.z80.policy

def legacyGrammar : Grammar := Grammar.ofTable Z80.table Dialect.legacy.policy

def Dialect.grammar : Dialect → Grammar
  | .z80 => z80Grammar
  | .legacy => legacyGrammar

end AsmLint
