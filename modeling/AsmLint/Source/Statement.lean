import AsmLint.Source.Code
import AsmLint.Text.Space

/-! The shape of a line: a leading name, a label, and the statement with its mnemonic and operands.
Positions are columns of the code part. -/

namespace AsmLint

structure Lead where
  column : Nat
  name : List Char
  rest : List Char
deriving DecidableEq, Repr

namespace Lead

def of? (code : List Char) : Option Lead :=
  match code.dropWhile isBlank with
  | [] => none
  | c :: rest =>
    if isNameStart c then
      some ⟨(code.takeWhile isBlank).length, c :: rest.takeWhile isNameChar,
        rest.dropWhile isNameChar⟩
    else none

def token (lead : Lead) : Token := ⟨lead.name, lead.column⟩

def following (lead : Lead) : List Char := lead.rest.dropWhile isBlank

def spaced (lead : Lead) : Bool := lead.rest.head?.any isBlank

def afterColon? (lead : Lead) : Option (List Char) :=
  match lead.following with
  | ':' :: rest => some rest
  | _ => none

end Lead

def startsWithKeyword (keyword code : List Char) : Bool :=
  startsWithWord keyword (code.dropWhile isBlank)

def statement (code : List Char) : List Char :=
  (((Lead.of? code).bind Lead.afterColon?).getD code).dropWhile isBlank

structure Instruction where
  column : Nat
  mnemonic : List Char
  rest : List Char
deriving DecidableEq, Repr

def splitWidth : List Char → List Char × List Char
  | '.' :: c :: rest =>
    if c.isAlpha then ('.' :: c :: rest.takeWhile Char.isAlpha, rest.dropWhile Char.isAlpha)
    else ([], '.' :: c :: rest)
  | text => ([], text)

namespace Instruction

/-- A mnemonic is a letter, then letters, digits and underscores, then perhaps a width. A word that
runs on into other name characters is none. -/
def of? (code : List Char) : Option Instruction :=
  let text := statement code
  match text with
  | [] => none
  | c :: rest =>
    if c.isAlpha then
      let stem := c :: rest.takeWhile isWordChar
      let (width, rest) := splitWidth (rest.dropWhile isWordChar)
      if rest.head?.any isNameChar then none
      else some ⟨code.length - text.length, stem ++ width, rest⟩
    else none

def name (instruction : Instruction) : String := String.ofList instruction.mnemonic

def stop (instruction : Instruction) : Nat := instruction.column + instruction.mnemonic.length

def operandText (instruction : Instruction) : List Char := trim instruction.rest

def operandColumn (instruction : Instruction) : Nat :=
  instruction.stop + (instruction.rest.takeWhile isBlank).length

end Instruction

def commaPieces (quoted : List Extent) (position : Nat) : List Char → List (List Char)
  | [] => [[]]
  | c :: rest =>
    if c == ',' && !insideAny quoted position 1 then [] :: commaPieces quoted (position + 1) rest
    else
      match commaPieces quoted (position + 1) rest with
      | piece :: pieces => (c :: piece) :: pieces
      | [] => [[c]]

def operands (quoted : List Extent) (instruction : Instruction) : List (List Char) :=
  ((commaPieces quoted instruction.stop instruction.rest).map trim).filter fun piece =>
    !piece.isEmpty

end AsmLint
