import AsmLint.Diagnostic.Basic
import AsmLint.Source.Nesting
import AsmLint.Text.Decimal

/-! Reports blocks that are left open, or closed too often, at the end of the document. Such a
finding has no line of its own and is put at the first character of the document. -/

namespace AsmLint

def documentStart : Span := ⟨0, 0, 1⟩

def checkBraces (nesting : Nesting) : List Diagnostic :=
  if nesting.braceDepth = 0 then []
  else [.ofCode .unbalancedBlock .standard documentStart [("depth", intText nesting.braceDepth)]]

def checkMacros (nesting : Nesting) : List Diagnostic :=
  if nesting.macroDepth = 0 then []
  else [.ofCode .unterminatedMacro .standard documentStart [("depth", Nat.repr nesting.macroDepth)]]

def checkBalance (nesting : Nesting) : List Diagnostic := checkBraces nesting ++ checkMacros nesting

end AsmLint
