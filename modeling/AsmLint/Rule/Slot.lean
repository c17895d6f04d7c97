import AsmLint.Collection.NameSet
import AsmLint.Text.Ascii
import AsmLint.Text.CaseFold

/-! Slots: what one operand of an instruction may be. Tokens and words are kept in upper case, and
an operand is compared with them letter case aside; the fixed parts of a pattern are compared under
simple case folding. -/

namespace AsmLint

inductive Filling where
  | tokens (allowed : NameSet)
  | word (expected : String)
  | unrestricted
deriving DecidableEq

inductive Slot where
  | registers (key : String) (tokens : NameSet)
  | options (tokens : NameSet)
  | literal (word : String)
  /-- Any text. A free-form slot can take all operands of a line as one. -/
  | any (key : String) (freeForm : Bool)
  | pattern (template : String) (before after : List Char) (filling : Filling)
deriving DecidableEq

def Filling.accepts (filling : Filling) (text : List Char) : Bool :=
  match filling with
  | .tokens allowed => allowed.contains (String.ofList (upper text))
  | .word expected => sameIgnoringCase text expected.toList
  | .unrestricted => true

/-- The text that an operand holds between two fixed parts: at least one character, no line feed. -/
def gap? (before after operand : List Char) : Option (List Char) :=
  let inner := operand.drop before.length
  let size := inner.length - after.length
  let middle := inner.take size
  if sameLetters (operand.take before.length) before && sameLetters (inner.drop size) after &&
      !middle.isEmpty && !middle.contains '\n' then
    some middle
  else none

namespace Slot

def accepts (slot : Slot) (operand : List Char) : Bool :=
  match slot with
  | .registers _ tokens => tokens.contains (String.ofList (upper operand))
  | .options tokens => tokens.contains (String.ofList (upper operand))
  | .literal word => sameIgnoringCase operand word.toList
  | .any _ _ => true
  | .pattern _ before after filling =>
    match gap? before after operand with
    | some middle => filling.accepts middle
    | none => false

def freeForm (slot : Slot) : Bool :=
  match slot with
  | .any _ freeForm => freeForm
  | _ => false

def kind (slot : Slot) : String :=
  match slot with
  | .registers _ _ => "register-set"
  | .options _ => "options"
  | .literal _ => "literal"
  | .any _ _ => "any"
  | .pattern _ _ _ _ => "pattern"

def listTokens (tokens : NameSet) : String := String.intercalate " " tokens.names

def describe (slot : Slot) : String :=
  match slot with
  | .registers key tokens => "%" ++ key ++ " \x7b" ++ listTokens tokens ++ "\x7d"
  | .options tokens => "[" ++ listTokens tokens ++ "]"
  | .literal word => word
  | .any key _ => "%" ++ key ++ " (any)"
  | .pattern template _ _ (.tokens allowed) => template ++ " \x7b" ++ listTokens allowed ++ "\x7d"
  | .pattern template _ _ (.word expected) => template ++ " [" ++ expected ++ "]"
  | .pattern template _ _ .unrestricted => template

end Slot

end AsmLint
