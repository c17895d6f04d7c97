import AsmLint.Text.Ascii

/-! The text of a usage rule, such as a mnemonic followed by the shapes of its operands. Units are
separated by blanks, except that an option list, from `%[` to the first closing bracket, holds
together whatever is in it. -/

namespace AsmLint

def opensOptions (c : Char) (rest : List Char) : Bool := c == '%' && rest.head? == some '['

def unitPieces (inOptions : Bool) : List Char → List (List Char)
  | [] => [[]]
  | c :: rest =>
    if !inOptions && isBlank c then [] :: unitPieces false rest
    else
      let within := if inOptions then c != ']' else opensOptions c rest
      match unitPieces within rest with
      | piece :: pieces => (c :: piece) :: pieces
      | [] => [[c]]

def units (rule : List Char) : List (List Char) :=
  (unitPieces false rule).filter fun piece => !piece.isEmpty

def placeholderKeysFrom (inOptions : Bool) : List Char → List (List Char)
  | [] => []
  | c :: rest =>
    if inOptions then placeholderKeysFrom (c != ']') rest
    else if opensOptions c rest then placeholderKeysFrom true rest
    else if c == '%' && rest.head?.any isWordChar then
      rest.takeWhile isWordChar :: placeholderKeysFrom false rest
    else placeholderKeysFrom false rest

def placeholderKeys (rule : List Char) : List (List Char) := placeholderKeysFrom false rule

end AsmLint
