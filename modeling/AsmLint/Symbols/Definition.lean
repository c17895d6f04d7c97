import AsmLint.Source.Statement

/-! What a line introduces: a label, a variable, or a name that it only declares. Each function
gives the name as it stands in the code; whether it lies in a string literal is asked elsewhere. -/

namespace AsmLint

def labelDefinition? (code : List Char) : Option Token :=
  (Lead.of? code).bind fun lead => lead.afterColon?.map fun _ => lead.token

def startsWithStorage (text : List Char) : Bool :=
  sameIgnoringCase (text.take 3) "DS.".toList &&
    (text.drop 3).head?.any fun c => "BWLD".toList.contains c.toUpper

/-- What makes the leading name of a line a variable: `EQU` or a storage width after a gap, an
equals sign, or, inside a block, nothing at all. -/
def definesVariable (inBlock : Bool) (lead : Lead) : Bool :=
  (lead.spaced && startsWithWord "EQU".toList lead.following) ||
    lead.following.head? == some '=' ||
    (lead.spaced && startsWithStorage lead.following) ||
    (inBlock && lead.following.isEmpty)

def variableDefinition? (inBlock : Bool) (code : List Char) : Option Token :=
  (Lead.of? code).bind fun lead => if definesVariable inBlock lead then some lead.token else none

def dropTrailingDots (name : List Char) : List Char := (name.reverse.dropWhile (· == '.')).reverse

/-- The name after a declaration keyword, without dots at its end. -/
def declaration? (isKeyword : String → Bool) (code : List Char) : Option Token :=
  (Lead.of? code).bind fun lead =>
    if isKeyword (String.ofList lead.name) && lead.spaced then
      (Lead.of? lead.rest).bind fun declared =>
        let name := dropTrailingDots declared.name
        if name.isEmpty then none
        else some ⟨name, lead.column + lead.name.length + declared.column⟩
    else none

end AsmLint
