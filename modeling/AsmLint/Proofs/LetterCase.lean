import AsmLint.Proofs.Positions
import AsmLint.Proofs.Usage

/-! Letter case. Every scanner finds on a line with raised letters what it finds on the line, in the
same columns and with its letters raised; every slot takes an operand in both spellings or in none.
So lines that differ in letter case alone are judged alike. -/

namespace AsmLint

def IgnoresCase (inClass : Char → Bool) : Prop := ∀ c : Char, inClass c.toUpper = inClass c

section Classes

variable {inClass : Char → Bool}

theorem ignoresCase_of_letters (letters : ∀ c : Char, c.isAlpha = true → inClass c = true) :
    IgnoresCase inClass := inClass_toUpper letters

theorem IgnoresCase.not (ignores : IgnoresCase inClass) : IgnoresCase fun c => !inClass c :=
  fun c => congrArg Bool.not (ignores c)

theorem ignoresCase_of_noLetters (noLetters : ∀ c : Char, c.isAlpha = true → inClass c = false) :
    IgnoresCase inClass := by
  have others : IgnoresCase fun c => !inClass c :=
    ignoresCase_of_letters fun c letter => by rw [noLetters c letter]; rfl
  simpa using others.not

theorem ignoresCase_beq {mark : Char} (noLetter : mark.isAlpha = false) :
    IgnoresCase (· == mark) := by
  intro c
  rw [Bool.eq_iff_iff, beq_iff_eq, beq_iff_eq, toUpper_eq_iff noLetter]

theorem ignoresCase_isNameChar : IgnoresCase isNameChar :=
  ignoresCase_of_letters fun _ => isNameChar_of_isAlpha

theorem ignoresCase_isNameStart : IgnoresCase isNameStart :=
  ignoresCase_of_letters fun c letter => by simp [isNameStart, letter]

theorem ignoresCase_isWordChar : IgnoresCase isWordChar :=
  ignoresCase_of_letters fun c letter => by simp [isWordChar, Char.isAlphanum, letter]

theorem ignoresCase_isAlpha : IgnoresCase Char.isAlpha :=
  ignoresCase_of_letters fun _ letter => letter

theorem ignoresCase_isSpace : IgnoresCase isSpace :=
  ignoresCase_of_noLetters fun _ letter => isSpace_of_isNameChar (isNameChar_of_isAlpha letter)

theorem ignoresCase_isBlank : IgnoresCase isBlank :=
  ignoresCase_of_noLetters fun c letter => by
    have space := isSpace_of_isNameChar (isNameChar_of_isAlpha letter)
    rw [Bool.eq_false_iff]
    intro blank
    rw [isSpace_of_isBlank blank] at space
    contradiction

theorem isAlpha_of_isQuote {quote : Char} (quoted : isQuote quote = true) :
    quote.isAlpha = false := by
  rw [Bool.eq_false_iff]
  intro letter
  have other := isNameChar_of_isQuote quoted
  rw [isNameChar_of_isAlpha letter] at other
  contradiction

theorem ignoresCase_isQuote : IgnoresCase isQuote :=
  ignoresCase_of_noLetters fun c letter => by
    rw [Bool.eq_false_iff]
    intro quoted
    rw [isAlpha_of_isQuote quoted] at letter
    contradiction

theorem ignoresCase_isCommentMarker : IgnoresCase isCommentMarker := fun c =>
  congrArg₂ or (@ignoresCase_beq ';' (by decide) c) (@ignoresCase_beq '#' (by decide) c)

end Classes

section Texts

variable {inClass : Char → Bool}

theorem takeWhile_upper (ignores : IgnoresCase inClass) (text : List Char) :
    (upper text).takeWhile inClass = upper (text.takeWhile inClass) := by
  have same : inClass ∘ Char.toUpper = inClass := funext ignores
  rw [upper, List.takeWhile_map, same, upper]

theorem dropWhile_upper (ignores : IgnoresCase inClass) (text : List Char) :
    (upper text).dropWhile inClass = upper (text.dropWhile inClass) := by
  have same : inClass ∘ Char.toUpper = inClass := funext ignores
  rw [upper, List.dropWhile_map, same, upper]

theorem head?_any_upper (ignores : IgnoresCase inClass) (text : List Char) :
    (upper text).head?.any inClass = text.head?.any inClass := by
  cases text with
  | nil => rfl
  | cons c rest => exact ignores c

theorem isEmpty_upper (text : List Char) : (upper text).isEmpty = text.isEmpty := by
  cases text <;> rfl

theorem upper_append (text more : List Char) : upper (text ++ more) = upper text ++ upper more :=
  List.map_append

theorem codePart_upper (raw : List Char) : codePart (upper raw) = upper (codePart raw) :=
  takeWhile_upper ignoresCase_isCommentMarker.not raw

theorem trim_upper (text : List Char) : trim (upper text) = upper (trim text) := by
  have reversed (text : List Char) : (upper text).reverse = upper text.reverse :=
    List.map_reverse.symm
  rw [trim, trimStart, dropWhile_upper ignoresCase_isSpace, trimEnd, reversed,
    dropWhile_upper ignoresCase_isSpace, reversed]
  rfl

end Texts

section Literals

variable {quote : Char}

/-- Neither quotes nor the backslash are letters, so a search passes the same characters. -/
theorem closing_upper (noLetter : quote.isAlpha = false) (text : List Char) :
    closing quote (upper text) = closing quote text := by
  fun_induction closing quote text with
  | case1 => rfl
  | case2 => rfl
  | case3 c rest ih => exact (closing_escaped _ _ _).trans (congrArg _ ih)
  | case4 rest notLast notEscaped =>
    have plain := mt (toUpper_eq_iff (by decide)).1 (ne_backslash notLast notEscaped)
    exact (closing_plain plain _).trans (if_pos ((toUpper_eq_iff noLetter).2 rfl))
  | case5 c rest notLast notEscaped different ih =>
    have plain := mt (toUpper_eq_iff (by decide)).1 (ne_backslash notLast notEscaped)
    refine (closing_plain plain _).trans ?_
    rw [if_neg (mt (toUpper_eq_iff noLetter).1 different)]
    exact congrArg _ ih

theorem toUpper_of_noLetter {c : Char} (noLetter : c.isAlpha = false) : c.toUpper = c :=
  (toUpper_eq_iff noLetter).2 rfl

theorem literalsFrom_upper (position : Nat) (text : List Char) :
    literalsFrom position (upper text) = literalsFrom position text := by
  fun_induction literalsFrom position text with
  | case1 => rw [upper, List.map_nil, literalsFrom]
  | case2 position c rest quote size closes ih =>
    have noLetter := isAlpha_of_isQuote quote
    rw [upper, List.map_cons, toUpper_of_noLetter noLetter, ← upper, literalsFrom, if_pos quote,
      closing_upper noLetter, closes]
    dsimp only
    rw [← ih, upper, upper, List.map_drop]
  | case3 position c rest quote unclosed ih =>
    have noLetter := isAlpha_of_isQuote quote
    rw [upper, List.map_cons, toUpper_of_noLetter noLetter, ← upper, literalsFrom, if_pos quote,
      closing_upper noLetter, unclosed]
    exact ih
  | case4 position c rest plain ih =>
    rw [upper, List.map_cons, ← upper, literalsFrom, if_neg (by rwa [ignoresCase_isQuote c])]
    exact ih

theorem literals_upper (code : List Char) : literals (upper code) = literals code :=
  literalsFrom_upper 0 code

theorem commaPieces_upper (quoted : List Extent) (position : Nat) (text : List Char) :
    commaPieces quoted position (upper text) = (commaPieces quoted position text).map upper := by
  induction text generalizing position with
  | nil => rfl
  | cons c rest ih =>
    have comma : (c.toUpper == ',') = (c == ',') := ignoresCase_beq (by decide) c
    rw [upper, List.map_cons, ← upper, commaPieces, commaPieces, comma, ih]
    split
    · rfl
    · cases commaPieces quoted (position + 1) rest with
      | nil => rfl
      | cons piece pieces => rfl

end Literals

section Statements

def Lead.raised (lead : Lead) : Lead := ⟨lead.column, upper lead.name, upper lead.rest⟩

def Instruction.raised (instruction : Instruction) : Instruction :=
  ⟨instruction.column, upper instruction.mnemonic, upper instruction.rest⟩

theorem Lead.of?_upper (code : List Char) : of? (upper code) = (of? code).map raised := by
  rw [of?, of?, dropWhile_upper ignoresCase_isBlank, takeWhile_upper ignoresCase_isBlank,
    length_upper]
  cases code.dropWhile isBlank with
  | nil => rfl
  | cons c rest =>
    rw [upper, List.map_cons, ← upper]
    dsimp only
    rw [ignoresCase_isNameStart c, takeWhile_upper ignoresCase_isNameChar,
      dropWhile_upper ignoresCase_isNameChar]
    split <;> rfl

theorem Lead.afterColon?_raised (lead : Lead) :
    lead.raised.afterColon? = lead.afterColon?.map upper := by
  have following : lead.raised.following = upper lead.following :=
    dropWhile_upper ignoresCase_isBlank lead.rest
  rw [afterColon?, afterColon?, following]
  cases lead.following with
  | nil => rfl
  | cons c rest =>
    by_cases colon : c = ':'
    · subst colon
      rfl
    · have other : c.toUpper ≠ ':' := mt (toUpper_eq_iff (by decide)).1 colon
      rw [upper, List.map_cons]
      split <;> split <;> simp_all

theorem statement_upper (code : List Char) : statement (upper code) = upper (statement code) := by
  have label : (Lead.of? (upper code)).bind Lead.afterColon? =
      ((Lead.of? code).bind Lead.afterColon?).map upper := by
    rw [Lead.of?_upper]
    cases Lead.of? code with
    | none => rfl
    | some lead => exact lead.afterColon?_raised
  rw [statement, statement, label, ← dropWhile_upper ignoresCase_isBlank]
  cases (Lead.of? code).bind Lead.afterColon? <;> rfl

theorem splitWidth_of_ne {c : Char} (noDot : c ≠ '.') (rest : List Char) :
    splitWidth (c :: rest) = ([], c :: rest) := by
  rw [splitWidth]
  intro _ _ same
  exact noDot (List.cons.inj same).1

theorem splitWidth_upper (text : List Char) :
    splitWidth (upper text) = (upper (splitWidth text).1, upper (splitWidth text).2) := by
  cases text with
  | nil => rfl
  | cons c rest =>
    by_cases dot : c = '.'
    · subst dot
      cases rest with
      | nil => rfl
      | cons d rest =>
        change splitWidth ('.' :: d.toUpper :: upper rest) = _
        rw [splitWidth, splitWidth, ignoresCase_isAlpha d, takeWhile_upper ignoresCase_isAlpha,
          dropWhile_upper ignoresCase_isAlpha]
        split <;> rfl
    · rw [splitWidth_of_ne dot]
      exact splitWidth_of_ne (mt (toUpper_eq_iff (by decide)).1 dot) (upper rest)

theorem Instruction.of?_upper (code : List Char) : of? (upper code) = (of? code).map raised := by
  rw [of?, of?, statement_upper, length_upper, length_upper]
  cases statement code with
  | nil => rfl
  | cons c rest =>
    rw [upper, List.map_cons, ← upper]
    dsimp only
    rw [ignoresCase_isAlpha c, takeWhile_upper ignoresCase_isWordChar,
      dropWhile_upper ignoresCase_isWordChar, splitWidth_upper]
    dsimp only
    rw [head?_any_upper ignoresCase_isNameChar]
    split
    · split
      · rfl
      · have mnemonic : c.toUpper :: upper (rest.takeWhile isWordChar) =
            upper (c :: rest.takeWhile isWordChar) := rfl
        rw [mnemonic, ← upper_append]
        rfl
    · rfl

end Statements

section Slots

theorem foldCase_toUpper (c : Char) : foldCase c.toUpper = foldCase c := by
  have letters : ∀ place : Fin 26,
      foldCase (Char.ofNat (97 + place)).toUpper = foldCase (Char.ofNat (97 + place)) := by decide
  by_cases lower : 'a'.val ≤ c.val ∧ c.val ≤ 'z'.val
  · have least : 97 ≤ c.toNat := lower.1
    have most : c.toNat ≤ 122 := lower.2
    have same := letters ⟨c.toNat - 97, by omega⟩
    rwa [Nat.add_sub_cancel' least, Char.ofNat_toNat] at same
  · rw [toUpper_eq_self lower]

theorem sameLetters_upper (text part : List Char) :
    sameLetters (upper text) part = sameLetters text part := by
  induction text generalizing part with
  | nil => rfl
  | cons c rest ih =>
    cases part with
    | nil => rfl
    | cons d part =>
      change (sameLetter c.toUpper d && sameLetters (upper rest) part) = _
      rw [sameLetter, foldCase_toUpper, ih]
      rfl

theorem gap?_upper (before after operand : List Char) :
    gap? before after (upper operand) = (gap? before after operand).map upper := by
  have drops (size : Nat) (text : List Char) : (upper text).drop size = upper (text.drop size) :=
    List.map_drop.symm
  have takes (size : Nat) (text : List Char) : (upper text).take size = upper (text.take size) :=
    List.map_take.symm
  have lineFeed (text : List Char) : (upper text).contains '\n' = text.contains '\n' := by
    rw [Bool.eq_iff_iff, List.contains_iff_mem, List.contains_iff_mem, mem_upper_iff (by decide)]
  rw [gap?, gap?]
  simp only [drops, takes, length_upper, sameLetters_upper, isEmpty_upper, lineFeed]
  split <;> rfl

theorem Filling.accepts_upper (filling : Filling) (text : List Char) :
    filling.accepts (upper text) = filling.accepts text := by
  cases filling with
  | tokens allowed => rw [accepts, accepts, upper_upper]
  | word expected => rw [accepts, accepts, sameIgnoringCase, sameIgnoringCase, upper_upper]
  | unrestricted => rfl

theorem Slot.accepts_upper (slot : Slot) (operand : List Char) :
    slot.accepts (upper operand) = slot.accepts operand := by
  cases slot with
  | registers key tokens => rw [accepts, accepts, upper_upper]
  | options tokens => rw [accepts, accepts, upper_upper]
  | literal word => rw [accepts, accepts, sameIgnoringCase, sameIgnoringCase, upper_upper]
  | any key freeForm => rfl
  | pattern template before after filling =>
    rw [accepts, accepts, gap?_upper]
    cases gap? before after operand with
    | none => rfl
    | some middle => exact filling.accepts_upper middle

theorem refusedOperand?_upper (slots : List Slot) (operands : List (List Char)) :
    refusedOperand? slots (operands.map upper) = (refusedOperand? slots operands).map upper := by
  induction slots generalizing operands with
  | nil => cases operands <;> rfl
  | cons slot slots ih =>
    cases operands with
    | nil => rfl
    | cons operand operands =>
      rw [List.map_cons, refusedOperand?, refusedOperand?, slot.accepts_upper, ih]
      split <;> rfl

end Slots

section Rules

variable (policy : OperandPolicy) (quoted : List Extent) (instruction : Instruction)

def Mismatch.raised : Mismatch → Mismatch
  | .refused operand text => .refused (upper operand) text
  | other => other

theorem Instruction.stop_raised : instruction.raised.stop = instruction.stop :=
  congrArg (instruction.column + ·) (length_upper instruction.mnemonic)

theorem Instruction.operandText_raised :
    instruction.raised.operandText = upper instruction.operandText :=
  trim_upper instruction.rest

theorem operands_raised :
    operands quoted instruction.raised = (operands quoted instruction).map upper := by
  have trimmed : trim ∘ upper = upper ∘ trim := funext trim_upper
  rw [operands, operands, instruction.stop_raised, Instruction.raised, commaPieces_upper,
    List.map_map, trimmed, ← List.map_map, List.filter_map]
  congr 2
  funext piece
  exact congrArg Bool.not (isEmpty_upper piece)

theorem operandsFor_raised (rule : Rule) :
    operandsFor policy quoted instruction.raised rule =
      (operandsFor policy quoted instruction rule).map upper := by
  rw [operandsFor, operandsFor, instruction.operandText_raised, isEmpty_upper, operands_raised]
  split
  · split <;> rfl
  · rfl

theorem headMatches_upper (rule : Rule) (mnemonic : List Char) :
    headMatches rule (upper mnemonic) = headMatches rule mnemonic := by
  have dot : (upper mnemonic).contains '.' = mnemonic.contains '.' := by
    rw [Bool.eq_iff_iff, List.contains_iff_mem, List.contains_iff_mem, mem_upper_iff (by decide)]
  rw [headMatches, headMatches, dot, upper_upper]

theorem mismatch?_raised (rule : Rule) :
    mismatch? policy quoted instruction.raised rule =
      (mismatch? policy quoted instruction rule).map Mismatch.raised := by
  have head : headMatches rule instruction.raised.mnemonic =
      headMatches rule instruction.mnemonic := headMatches_upper rule instruction.mnemonic
  rw [mismatch?, mismatch?, head, instruction.operandText_raised, isEmpty_upper]
  dsimp only
  rw [operandsFor_raised, List.length_map, refusedOperand?_upper]
  split
  · rfl
  · split
    · split <;> rfl
    · split
      · rfl
      · rw [Option.map_map, Option.map_map]
        rfl

theorem ruleMismatch?_raised (rule : Except RuleError Rule) :
    ruleMismatch? policy quoted instruction.raised rule =
      (ruleMismatch? policy quoted instruction rule).map Mismatch.raised := by
  cases rule with
  | ok rule => exact mismatch?_raised policy quoted instruction rule
  | error error => rfl

theorem mismatches?_raised (usage : Usage) :
    usage.mismatches? policy quoted instruction.raised =
      (usage.mismatches? policy quoted instruction).map (List.map Mismatch.raised) := by
  rw [Usage.mismatches?, Usage.mismatches?]
  induction usage.rules with
  | nil => rfl
  | cons rule rules ih =>
    rw [List.mapM_cons, List.mapM_cons, ruleMismatch?_raised, ih]
    cases ruleMismatch? policy quoted instruction rule with
    | none => rfl
    | some mismatch => cases rules.mapM (ruleMismatch? policy quoted instruction) <;> rfl

theorem usageSpan_raised (line : Nat) (code : List Char) :
    usageSpan line (upper code) instruction.raised = usageSpan line code instruction := by
  have column : instruction.raised.operandColumn = instruction.operandColumn := by
    rw [Instruction.operandColumn, instruction.stop_raised, Instruction.raised,
      takeWhile_upper ignoresCase_isBlank, length_upper, Instruction.operandColumn]
  rw [usageSpan, usageSpan, instruction.operandText_raised, isEmpty_upper, column,
    instruction.stop_raised, length_upper]
  rfl

end Rules

theorem upperName_append (text more : String) :
    upperName (text ++ more) = upperName text ++ upperName more := by
  rw [upperName, String.toList_append, upper_append, String.ofList_append, upperName, upperName]

theorem upperName_ofList (text : List Char) :
    upperName (String.ofList text) = String.ofList (upper text) :=
  congrArg (fun text => String.ofList (upper text)) String.toList_ofList

theorem upperName_ofList_upper (text : List Char) :
    upperName (String.ofList (upper text)) = upperName (String.ofList text) := by
  rw [upperName_ofList, upperName_ofList, upper_upper]

theorem Mismatch.reason_raised (mismatch : Mismatch) :
    upperName mismatch.raised.reason = upperName mismatch.reason := by
  cases mismatch with
  | refused operand text =>
    have around (front middle back : String) :
        upperName (front ++ String.ofList (upper operand) ++ middle ++ back) =
          upperName (front ++ String.ofList operand ++ middle ++ back) := by
      simp only [upperName_append, upperName_ofList_upper]
    exact around _ _ text
  | _ => rfl

/-- What a finding about usage says, the letter case of its reason aside. -/
structure UsageVerdict where
  id : String
  severity : Severity
  span : Option Span
  mnemonic : Option String
  variants : Option String
  reason : Option String

def Diagnostic.usageVerdict (finding : Diagnostic) : UsageVerdict where
  id := finding.id
  severity := finding.severity
  span := finding.span
  mnemonic := finding.value? "mnemonic"
  variants := finding.value? "variants"
  reason := (finding.value? "reason").map upperName

theorem usageVerdict_usageFinding (line : Nat) (code : List Char) (instruction : Instruction)
    (usage : Usage) (mismatches : List Mismatch) :
    (usageFinding line code instruction usage mismatches).usageVerdict =
      ⟨Code.invalidUsage.id, .error, some (usageSpan line code instruction), some usage.mnemonic,
        some (String.intercalate " | " usage.variantTexts),
        some (upperName ((mismatches.head?.map Mismatch.reason).getD ""))⟩ := by
  have value := Diagnostic.value?_ofCode .invalidUsage
  rw [Diagnostic.usageVerdict, usageFinding, value, value, value]
  rfl

theorem usageVerdict_raised (line : Nat) (code : List Char) (instruction : Instruction)
    (usage : Usage) (mismatches : List Mismatch) :
    (usageFinding line (upper code) instruction.raised usage
        (mismatches.map Mismatch.raised)).usageVerdict =
      (usageFinding line code instruction usage mismatches).usageVerdict := by
  have reason : upperName (((mismatches.map Mismatch.raised).head?.map Mismatch.reason).getD "") =
      upperName ((mismatches.head?.map Mismatch.reason).getD "") := by
    cases mismatches with
    | nil => rfl
    | cons mismatch mismatches => exact mismatch.reason_raised
  rw [usageVerdict_usageFinding, usageVerdict_usageFinding, usageSpan_raised, reason]

theorem checkUsage_upper (grammar : Grammar) (line : Nat) (code : List Char) :
    (checkUsage grammar line (upper code)).map Diagnostic.usageVerdict =
      (checkUsage grammar line code).map Diagnostic.usageVerdict := by
  rw [checkUsage, checkUsage, Instruction.of?_upper, literals_upper]
  cases Instruction.of? code with
  | none => rfl
  | some instruction =>
    have name : grammar.lookup instruction.raised.name = grammar.lookup instruction.name :=
      grammar.lookup_congr (upperName_ofList_upper instruction.mnemonic)
    rw [Option.map_some, Option.bind_some, Option.bind_some, name]
    cases grammar.lookup instruction.name with
    | none => rfl
    | some usage =>
      rw [Option.bind_some, Option.bind_some, mismatches?_raised, Option.map_map, Option.map_map,
        Option.map_map]
      congr 1
      funext mismatches
      exact usageVerdict_raised line code instruction usage mismatches

theorem checkUsage_of_sameLetters (grammar : Grammar) (line : Nat) {first second : List Char}
    (same : upper first = upper second) :
    (checkUsage grammar line (codePart first)).map Diagnostic.usageVerdict =
      (checkUsage grammar line (codePart second)).map Diagnostic.usageVerdict := by
  rw [← checkUsage_upper, ← codePart_upper, same, codePart_upper, checkUsage_upper]

theorem usageVerdicts_of_sameLetters (grammar : Grammar) {lines others : List (List Char)}
    (same : List.Forall₂ (fun first second => sameIgnoringCase first second = true) lines others)
    (start : Nat) :
    ((lines.zipIdx start).flatMap fun numbered =>
        (checkUsage grammar numbered.2 (codePart numbered.1)).toList.map Diagnostic.usageVerdict) =
      (others.zipIdx start).flatMap fun numbered =>
        (checkUsage grammar numbered.2 (codePart numbered.1)).toList.map
          Diagnostic.usageVerdict := by
  induction same generalizing start with
  | nil => rfl
  | @cons first second lines others here _ ih =>
    have verdict := checkUsage_of_sameLetters grammar start (sameIgnoringCase_iff.1 here)
    rw [List.zipIdx_cons, List.zipIdx_cons, List.flatMap_cons, List.flatMap_cons, ih,
      ← Option.toList_map, ← Option.toList_map, verdict]

/-- Letter case has no part in the judgement about usage. Of two lines that differ in the case of
letters alone, either none is reported or both are, in the same place, for the same mnemonic and for
reasons that differ in letter case at most; and so line by line in two documents. -/
theorem usage_ignores_case (grammar : Grammar) :
    (∀ line first second, sameIgnoringCase first second = true →
      (checkUsage grammar line (codePart first)).map Diagnostic.usageVerdict =
        (checkUsage grammar line (codePart second)).map Diagnostic.usageVerdict) ∧
    ∀ lines others, List.Forall₂ (fun first second => sameIgnoringCase first second = true)
        lines others →
      (findingsOf .invalidUsage (validateLines grammar lines).issues).map Diagnostic.usageVerdict =
        (findingsOf .invalidUsage (validateLines grammar others).issues).map
          Diagnostic.usageVerdict := by
  refine ⟨fun line first second same => ?_, fun lines others same => ?_⟩
  · exact checkUsage_of_sameLetters grammar line (sameIgnoringCase_iff.1 same)
  · rw [findingsOf_invalidUsage, findingsOf_invalidUsage, List.map_flatMap, List.map_flatMap]
    exact usageVerdicts_of_sameLetters grammar same 0

theorem usage_ignores_case_in_pattern :
    let table : RuleTable := ⟨"1.0.0", "t", Dict.ofList [("r", .tokens ["A", "B"])],
      Dict.ofList [("LD", ["LD %r, (IX+%r)"])], Dict.empty, []⟩
    sameIgnoringCase "x: ld b, (ix+q)".toList "X: Ld B, (iX+Q)".toList = true ∧
      (checkUsage (.ofTable table ⟨true, true⟩) 3 (codePart "X: Ld B, (iX+Q)".toList)).map
          (fun finding => (finding.span, finding.value? "mnemonic")) =
        some (some ⟨3, 6, 15⟩, some "LD") := by
  intro table
  have same : sameIgnoringCase "x: ld b, (ix+q)".toList "X: Ld B, (iX+Q)".toList = true := by decide
  have small : (checkUsage (.ofTable table ⟨true, true⟩) 3
      (codePart "x: ld b, (ix+q)".toList)).map
        (fun finding => (finding.span, finding.value? "mnemonic")) =
      some (some ⟨3, 6, 15⟩, some "LD") := by decide +kernel
  have verdicts := (usage_ignores_case (.ofTable table ⟨true, true⟩)).1 3 _ _ same
  have parts := congrArg (Option.map fun verdict => (verdict.span, verdict.mnemonic)) verdicts
  rw [Option.map_map, Option.map_map] at parts
  exact ⟨same, parts.symm.trans small⟩

end AsmLint
