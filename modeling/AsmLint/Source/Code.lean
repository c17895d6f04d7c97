import AsmLint.Source.Extent
import AsmLint.Text.Ascii

/-! The code part of a line and what can be told apart in it: string literals and names. A comment
marker ends the code even inside quotes, so a literal never reaches past it. -/

namespace AsmLint

def isCommentMarker (c : Char) : Bool := c == ';' || c == '#'

def codePart (line : List Char) : List Char := line.takeWhile fun c => !isCommentMarker c

def isQuote (c : Char) : Bool := c == '\x22' || c == '\x27' || c == '\x60'

/-- How many characters there are up to and including the quote that closes a literal. A backslash
takes the next character with it; one that ends the text leaves the literal open. -/
def closing (quote : Char) : List Char → Option Nat
  | [] => none
  | ['\x5c'] => none
  | '\x5c' :: _ :: rest => (closing quote rest).map (· + 2)
  | c :: rest => if c = quote then some 1 else (closing quote rest).map (· + 1)

/-- The string literals of a text that starts at `position`, quotes included. A quote that nothing
closes is an ordinary character. -/
def literalsFrom (position : Nat) (text : List Char) : List Extent :=
  match text with
  | [] => []
  | c :: rest =>
    if isQuote c then
      match closing c rest with
      | some size =>
        ⟨position, position + 1 + size⟩ :: literalsFrom (position + 1 + size) (rest.drop size)
      | none => literalsFrom (position + 1) rest
    else literalsFrom (position + 1) rest
termination_by text.length
decreasing_by all_goals simp; try omega

def literals (code : List Char) : List Extent := literalsFrom 0 code

structure Token where
  text : List Char
  start : Nat
deriving DecidableEq, Repr

namespace Token

def stop (token : Token) : Nat := token.start + token.text.length

def name (token : Token) : String := String.ofList token.text

def inside (token : Token) (extents : List Extent) : Bool :=
  insideAny extents token.start token.text.length

end Token

/-- The names of a text that starts at `position`: maximal runs of name characters. A run led by a
digit is a number, and so is a run of hexadecimal digits right after a dollar sign. -/
def namesFrom (position : Nat) (afterDollar : Bool) (text : List Char) : List Token :=
  match text with
  | [] => []
  | c :: rest =>
    if isNameChar c then
      let run := c :: rest.takeWhile isNameChar
      let others := namesFrom (position + run.length) false (rest.dropWhile isNameChar)
      if c.isDigit || (afterDollar && run.all isHexDigit) then others
      else ⟨run, position⟩ :: others
    else namesFrom (position + 1) (c == '$') rest
termination_by text.length
decreasing_by
  · simp only [List.length_cons]
    have shorter := (List.dropWhile_sublist (p := isNameChar) (l := rest)).length_le
    omega
  · simp

def names (code : List Char) : List Token := namesFrom 0 false code

end AsmLint
