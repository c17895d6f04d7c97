import AsmLint.Source.Statement

/-! Nesting of blocks. Braces are counted wherever they stand in the code, string literals included;
macro bodies open and close with the leading keyword of a line. -/

namespace AsmLint

structure Nesting where
  /-- Opening braces less closing ones; negative when a block closes before it opens. -/
  braceDepth : Int
  macroDepth : Nat
deriving DecidableEq, Repr

namespace Nesting

def zero : Nesting := ⟨0, 0⟩

def observeBrace (depth : Int) (c : Char) : Int :=
  if c = '\x7b' then depth + 1 else if c = '\x7d' then depth - 1 else depth

def opensMacro (code : List Char) : Bool := startsWithKeyword "MACRO".toList code

def closesMacro (code : List Char) : Bool := startsWithKeyword "ENDM".toList code

def observeMacro (depth : Nat) (code : List Char) : Nat :=
  let opened := if opensMacro code then depth + 1 else depth
  if closesMacro code then opened - 1 else opened

def observe (nesting : Nesting) (code : List Char) : Nesting :=
  ⟨code.foldl observeBrace nesting.braceDepth, observeMacro nesting.macroDepth code⟩

def balanced (nesting : Nesting) : Bool := nesting.braceDepth == 0 && nesting.macroDepth == 0

end Nesting

end AsmLint
