/-! White space in the sense of the Unicode property, used where operand text is trimmed and where
the members of an option list are told apart. It holds the vertical tab and the no-break space,
which are no blanks of a source line. -/

namespace AsmLint

def isSpace (c : Char) : Bool :=
  let n := c.toNat
  (0x09 ≤ n && n ≤ 0x0d) || n == 0x20 || n == 0x85 || n == 0xa0 || n == 0x1680 ||
    (0x2000 ≤ n && n ≤ 0x200a) || n == 0x2028 || n == 0x2029 || n == 0x202f || n == 0x205f ||
    n == 0x3000

def trimStart (text : List Char) : List Char := text.dropWhile isSpace

def trimEnd (text : List Char) : List Char := (text.reverse.dropWhile isSpace).reverse

def trim (text : List Char) : List Char := trimEnd (trimStart text)

def splitBy (separates : Char → Bool) : List Char → List (List Char)
  | [] => [[]]
  | c :: rest =>
    if separates c then [] :: splitBy separates rest
    else
      match splitBy separates rest with
      | piece :: pieces => (c :: piece) :: pieces
      | [] => [[c]]

theorem splitBy_ne_nil (separates : Char → Bool) (text : List Char) :
    splitBy separates text ≠ [] := by
  cases text with
  | nil => simp [splitBy]
  | cons c rest =>
    simp only [splitBy]
    split
    · simp
    · split <;> simp

def spacedWords (text : List Char) : List (List Char) :=
  (splitBy isSpace text).filter fun piece => !piece.isEmpty

end AsmLint
