import AsmLint.Diagnostic.Basic
import AsmLint.Symbols.Table

/-! Checks that every name means something: a mnemonic or a keyword of the grammar in any letter
case, or a symbol of the document as it is written. A symbol may be defined anywhere in the
document. -/

namespace AsmLint

def isResolved (grammar : Grammar) (symbols : SymbolTable) (name : String) : Bool :=
  grammar.isMnemonic name || grammar.isKeyword name || symbols.contains name

def referenceFinding (line : Nat) (token : Token) : Diagnostic :=
  .ofCode .undefinedSymbol .standard ⟨line, token.start, token.stop⟩ [("name", token.name)]

def undefinedNames (grammar : Grammar) (symbols : SymbolTable) (code : List Char) : List Token :=
  let quoted := literals code
  (names code).filter fun token =>
    !token.inside quoted && !isResolved grammar symbols token.name

def checkReferences (grammar : Grammar) (symbols : SymbolTable) (line : Nat) (code : List Char) :
    List Diagnostic :=
  (undefinedNames grammar symbols code).map (referenceFinding line)

end AsmLint
