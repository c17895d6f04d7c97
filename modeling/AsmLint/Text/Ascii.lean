/-! Character classes of assembly source and letter case. Only ASCII characters take part: a letter
outside ASCII has no case here, is no part of a name, and is never a blank. -/

namespace AsmLint

/-- Blanks between the words of a line. The vertical tab is not one of them. -/
def isBlank (c : Char) : Bool :=
  c == ' ' || c == '\t' || c == '\n' || c == '\x0c' || c == '\r'

def isWordChar (c : Char) : Bool := c.isAlphanum || c == '_'

def isNameStart (c : Char) : Bool := c.isAlpha || c == '_' || c == '.'

def isNameChar (c : Char) : Bool := c.isAlphanum || c == '_' || c == '.'

def isHexDigit (c : Char) : Bool :=
  c.isDigit || ('a' ≤ c && c ≤ 'f') || ('A' ≤ c && c ≤ 'F')

theorem isNameStart_isNameChar {c : Char} (start : isNameStart c = true) : isNameChar c = true := by
  simp only [isNameStart, isNameChar, Char.isAlphanum, Bool.or_eq_true] at start ⊢
  grind

theorem isNameChar_iff (c : Char) : isNameChar c = (isWordChar c || c == '.') := rfl

def upper (text : List Char) : List Char := text.map Char.toUpper

theorem length_upper (text : List Char) : (upper text).length = text.length := by simp [upper]

def upperName (name : String) : String := String.ofList (upper name.toList)

def sameIgnoringCase (a b : List Char) : Bool := upper a == upper b

theorem sameIgnoringCase_iff {a b : List Char} :
    sameIgnoringCase a b = true ↔ upper a = upper b := by simp [sameIgnoringCase]

def sameNameIgnoringCase (a b : String) : Bool := sameIgnoringCase a.toList b.toList

def startsWithWord (word text : List Char) : Bool :=
  sameIgnoringCase (text.take word.length) word &&
    !((text.drop word.length).head?.any isWordChar)

end AsmLint
