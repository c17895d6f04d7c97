import AsmLint.Proofs.DeclaredKeys
import AsmLint.Proofs.LineIndex
import AsmLint.Proofs.Policies

/-! Lines written by a rule. The word of a rule and an operand for each of its slots, with commas
between the operands, are read back as that word and those operands, whatever the letter case of the
word and whether or not a label stands in front. So a line that is written by a rule is never
reported for its usage. -/

namespace AsmLint

section Words

theorem allIn_upper {inClass : Char → Bool}
    (letters : ∀ c : Char, c.isAlpha = true → inClass c = true) {text : List Char} :
    AllIn inClass (upper text) ↔ AllIn inClass text := by
  simp [AllIn, upper, inClass_toUpper letters]

theorem IsMnemonic.of_upper {word : List Char} (mnemonic : IsMnemonic (upper word)) :
    IsMnemonic word := by
  have isWord (c : Char) (letter : c.isAlpha = true) : isWordChar c = true := by
    simp [isWordChar, Char.isAlphanum, letter]
  have notDot (c : Char) (letter : c.isAlpha = true) : (c != '.') = true := by
    rw [bne_iff_ne]
    rintro rfl
    revert letter
    decide
  have isLetter := @inClass_toUpper Char.isAlpha fun _ letter => letter
  generalize raised : upper word = text at mnemonic
  cases mnemonic with
  | plain letter stem =>
    obtain ⟨c, rest, rfl, rfl, rfl⟩ := List.map_eq_cons_iff.1 raised
    exact .plain (isLetter c ▸ letter) ((allIn_upper isWord).1 stem)
  | sized letter stem nonempty width =>
    obtain ⟨front, back, rfl, first, second⟩ := List.map_eq_append_iff.1 raised
    obtain ⟨c, rest, rfl, rfl, rfl⟩ := List.map_eq_cons_iff.1 first
    obtain ⟨dot, letters, rfl, isDot, rfl⟩ := List.map_eq_cons_iff.1 second
    obtain rfl : dot = '.' := by
      have same := inClass_toUpper notDot dot
      simpa [isDot] using same
    exact .sized (isLetter c ▸ letter) ((allIn_upper isWord).1 stem) (by simpa using nonempty)
      ((allIn_upper fun _ letter => letter).1 width)

end Words

section Lines

def operandText (operands : List (List Char)) : List Char :=
  [','].intercalate (operands.map (' ' :: ·))

def instructionText (word : List Char) (operands : List (List Char)) : List Char :=
  word ++ operandText operands

example : instructionText "LD".toList ["A".toList, "(HL)".toList] = "LD A, (HL)".toList := by
  decide

def isPlain (c : Char) : Bool := !isCommentMarker c && !isQuote c

/-- A text that can stand between two commas: some plain characters with no comma among them and no
white space around them. -/
structure IsOperand (text : List Char) : Prop where
  nonempty : text ≠ []
  plain : AllIn isPlain text
  noComma : ',' ∉ text
  starts : StartsOutside isSpace text
  ends : EndsOutside isSpace text

instance (text : List Char) : Decidable (IsOperand text) :=
  decidable_of_iff (text ≠ [] ∧ AllIn isPlain text ∧ ',' ∉ text ∧ StartsOutside isSpace text ∧
      EndsOutside isSpace text)
    ⟨fun ⟨nonempty, plain, noComma, starts, ends⟩ => ⟨nonempty, plain, noComma, starts, ends⟩,
      fun ⟨nonempty, plain, noComma, starts, ends⟩ => ⟨nonempty, plain, noComma, starts, ends⟩⟩

/-- What may stand before the word of an instruction: blanks, or a label and blanks around it. -/
inductive IsFront : List Char → Prop where
  | blanks {indent} : AllIn isBlank indent → IsFront indent
  | label {indent c name gap blanks} : AllIn isBlank indent → isNameStart c = true →
      AllIn isNameChar name → AllIn isBlank gap → AllIn isBlank blanks →
      IsFront (indent ++ (c :: name ++ (gap ++ ':' :: blanks)))

theorem isPlain_of_inClass {inClass : Char → Bool} {c : Char}
    (refused : [';', '#', '\x22', '\x27', '\x60'].any inClass = false) (inside : inClass c = true) :
    isPlain c = true := by
  apply Classical.byContradiction
  intro notPlain
  have marked : c ∈ [';', '#', '\x22', '\x27', '\x60'] := by
    simp only [isPlain, isCommentMarker, isQuote] at notPlain
    grind
  exact List.any_eq_false.1 refused c marked inside

theorem AllIn.plain {inClass : Char → Bool} {text : List Char} (inside : AllIn inClass text)
    (refused : [';', '#', '\x22', '\x27', '\x60'].any inClass = false) : AllIn isPlain text :=
  fun c member => isPlain_of_inClass refused (inside c member)

theorem IsFront.plain {front : List Char} (isFront : IsFront front) : AllIn isPlain front := by
  cases isFront with
  | blanks indent => exact indent.plain (by decide)
  | label indent start name gap blanks =>
    have first := isPlain_of_inClass (by decide) start
    simp only [allIn_append, allIn_cons]
    exact ⟨indent.plain (by decide), ⟨first, name.plain (by decide)⟩, gap.plain (by decide),
      by decide, blanks.plain (by decide)⟩

theorem operandText_singleton (operand : List Char) : operandText [operand] = ' ' :: operand := by
  simp [operandText]

theorem operandText_cons_cons (operand next : List Char) (operands : List (List Char)) :
    operandText (operand :: next :: operands) =
      ' ' :: operand ++ ',' :: operandText (next :: operands) := by
  simp [operandText, List.intercalate]

theorem exists_operandText_cons (operand : List Char) (operands : List (List Char)) :
    ∃ later, operandText (operand :: operands) = ' ' :: operand ++ later := by
  cases operands with
  | nil => exact ⟨[], by rw [operandText_singleton, List.append_nil]⟩
  | cons next operands => exact ⟨_, operandText_cons_cons operand next operands⟩

theorem plain_operandText {operands : List (List Char)}
    (plain : ∀ operand ∈ operands, AllIn isPlain operand) :
    AllIn isPlain (operandText operands) := by
  induction operands with
  | nil => simp [operandText]
  | cons operand operands ih =>
    obtain ⟨first, others⟩ := List.forall_mem_cons.1 plain
    have blank : isPlain ' ' = true := by decide
    have comma : isPlain ',' = true := by decide
    cases operands with
    | nil => simp [operandText_singleton, blank, first]
    | cons next operands => simp [operandText_cons_cons, blank, comma, first, ih others]

theorem startsOutside_operandText (operands : List (List Char)) :
    StartsOutside isNameChar (operandText operands) := by
  cases operands with
  | nil => simp [operandText]
  | cons operand operands =>
    obtain ⟨later, text⟩ := exists_operandText_cons operand operands
    rw [text]
    exact startsOutside_cons.2 (by decide)

theorem longestRun_operandText {operand : List Char} (isOperand : IsOperand operand)
    (operands : List (List Char)) :
    ∃ later, LongestRun isBlank (operandText (operand :: operands)) [' '] (operand ++ later) := by
  obtain ⟨later, text⟩ := exists_operandText_cons operand operands
  obtain ⟨c, rest, rfl⟩ := List.exists_cons_of_ne_nil isOperand.nonempty
  have noBlank := isOperand.starts.mono fun _ => isSpace_of_isBlank
  exact ⟨later, by simpa using text, by decide, startsOutside_cons.2 (startsOutside_cons.1 noBlank)⟩

theorem not_colon_operandText {operands : List (List Char)} {gap tail : List Char}
    (plain : ∀ operand ∈ operands, IsOperand operand)
    (noColon : ∀ operand ∈ operands.head?, operand.head? ≠ some ':') :
    ¬ LongestRun isBlank (operandText operands) gap (':' :: tail) := by
  intro colon
  cases operands with
  | nil =>
    have split := colon.split
    simp [operandText] at split
  | cons operand operands =>
    have isOperand := plain operand List.mem_cons_self
    obtain ⟨later, run⟩ := longestRun_operandText isOperand operands
    have same := run.dropWhile_eq.symm.trans colon.dropWhile_eq
    obtain ⟨c, rest, rfl⟩ := List.exists_cons_of_ne_nil isOperand.nonempty
    obtain ⟨rfl, -⟩ := List.cons.inj same
    simp at noColon

theorem isBlank_of_isNameChar {c : Char} (nameChar : isNameChar c = true) : isBlank c = false := by
  rw [← Bool.not_eq_true]
  intro blank
  rw [@outside_of_isBlank isNameChar c (by decide) blank] at nameChar
  contradiction

theorem leadsWith_of_name {indent name rest : List Char} {c : Char} (blanks : AllIn isBlank indent)
    (start : isNameStart c = true) (inside : AllIn isNameChar name)
    (stops : StartsOutside isNameChar rest) :
    LeadsWith (indent ++ (c :: name ++ rest)) ⟨c :: name, indent.length⟩ rest := by
  have first := isNameStart_isNameChar start
  refine ⟨indent, c :: name ++ rest, ⟨rfl, blanks, ?_⟩, rfl,
    ⟨rfl, allIn_cons.2 ⟨first, inside⟩, stops⟩, c, rfl, start⟩
  exact startsOutside_cons.2 (isBlank_of_isNameChar first)

theorem IsMnemonic.exists_cons {word : List Char} (mnemonic : IsMnemonic word) :
    ∃ c rest, word = c :: rest ∧ isNameStart c = true ∧ AllIn isNameChar rest := by
  obtain ⟨c, rest, rfl⟩ := List.exists_cons_of_ne_nil mnemonic.ne_nil
  refine ⟨c, rest, rfl, ?_, (allIn_cons.1 mnemonic.allIn).2⟩
  have letter : c.isAlpha = true := by
    generalize text : c :: rest = word at mnemonic
    cases mnemonic with
    | plain letter => exact (List.cons.inj text).1 ▸ letter
    | sized letter => exact (List.cons.inj text).1 ▸ letter
  simp [isNameStart, letter]

variable {front word : List Char} {operands : List (List Char)}

theorem statementAt_instructionText (isFront : IsFront front) (mnemonic : IsMnemonic word)
    (plain : ∀ operand ∈ operands, IsOperand operand)
    (noColon : ∀ operand ∈ operands.head?, operand.head? ≠ some ':') :
    StatementAt (front ++ instructionText word operands) front (instructionText word operands) := by
  obtain ⟨first, letters, rfl, start, inside⟩ := mnemonic.exists_cons
  have stops := startsOutside_operandText operands
  have noBlank : StartsOutside isBlank (instructionText (first :: letters) operands) :=
    startsOutside_cons.2 (isBlank_of_isNameChar (isNameStart_isNameChar start))
  refine ⟨rfl, ?_⟩
  cases isFront with
  | blanks indent =>
    refine ⟨_, front, .inr ⟨rfl, ?_⟩, rfl, indent, noBlank⟩
    -- The only name that a label could have is the word itself, and no colon follows it.
    rintro ⟨tail, token, rest, gap, leads, colon⟩
    obtain ⟨-, rfl⟩ := leads.unique (leadsWith_of_name indent start inside stops)
    exact not_colon_operandText plain noColon colon
  | @label indent c name gap blanks indented named inName gapBlanks blanksBlank =>
    have ends : StartsOutside isNameChar
        (gap ++ ':' :: (blanks ++ instructionText (first :: letters) operands)) := by
      cases gap with
      | nil => exact startsOutside_cons.2 (by decide)
      | cons d gap =>
        exact startsOutside_cons.2 (outside_of_isBlank (by decide) (allIn_cons.1 gapBlanks).1)
    have leads := leadsWith_of_name indented named inName ends
    refine ⟨blanks ++ instructionText (first :: letters) operands, blanks, .inl ?_,
      rfl, blanksBlank, noBlank⟩
    refine ⟨⟨c :: name, indent.length⟩, _, gap, ?_, rfl, gapBlanks,
      startsOutside_cons.2 (by decide)⟩
    simpa using leads

theorem instructionAt_instructionText (isFront : IsFront front) (mnemonic : IsMnemonic word)
    (plain : ∀ operand ∈ operands, IsOperand operand)
    (noColon : ∀ operand ∈ operands.head?, operand.head? ≠ some ':') :
    InstructionAt (front ++ instructionText word operands)
      ⟨front.length, word, operandText operands⟩ :=
  ⟨front, _, statementAt_instructionText isFront mnemonic plain noColon, rfl,
    ⟨rfl, mnemonic.allIn, startsOutside_operandText operands⟩, mnemonic⟩

end Lines

section Operands

theorem IsOperand.trim_eq {text : List Char} (isOperand : IsOperand text) :
    trim (' ' :: text) = text :=
  trim_eq_iff.2 ⟨[' '], [], by simp, by decide, by simp, isOperand.starts, isOperand.ends⟩

theorem commaPieces_nil (position : Nat) (text : List Char) :
    commaPieces [] position text = splitBy (· == ',') text := by
  induction text generalizing position with
  | nil => rfl
  | cons c rest ih =>
    cases found : splitBy (· == ',') rest with
    | nil => exact absurd found (splitBy_ne_nil _ _)
    | cons piece pieces => simp [commaPieces, splitBy, insideAny, ih, found]

theorem literals_eq_nil {code : List Char} (plain : AllIn isPlain code) : literals code = [] := by
  rw [List.eq_nil_iff_forall_not_mem]
  intro literal member
  obtain ⟨c, here, quote⟩ := quote_of_mem_literals member
  have refused := plain c (List.mem_of_getElem? here)
  simp [isPlain, quote] at refused

theorem codePart_eq_self {line : List Char} (plain : AllIn isPlain line) :
    codePart line = line := by
  have run : LongestRun (fun c => !isCommentMarker c) line line [] :=
    ⟨by simp, fun c member => (Bool.and_eq_true_iff.1 (plain c member)).1, by simp⟩
  exact run.takeWhile_eq

variable {operands : List (List Char)}

theorem splitBy_operandText (plain : ∀ operand ∈ operands, IsOperand operand)
    (nonempty : operands ≠ []) :
    splitBy (· == ',') (operandText operands) = operands.map (' ' :: ·) := by
  rw [splitBy_eq_splitOnP, operandText]
  apply List.splitOn_intercalate ',' _ (by simpa using nonempty)
  intro piece member
  obtain ⟨operand, listed, rfl⟩ := List.mem_map.1 member
  simpa using (plain operand listed).noComma

theorem trimmed_operands (plain : ∀ operand ∈ operands, IsOperand operand) :
    ((operands.map (' ' :: ·)).map trim).filter (fun piece => !piece.isEmpty) = operands := by
  have trimmed : (operands.map (' ' :: ·)).map trim = operands := by
    rw [List.map_map]
    conv_rhs => rw [← List.map_id operands]
    apply List.map_congr_left
    intro operand member
    exact (plain operand member).trim_eq
  rw [trimmed, List.filter_eq_self]
  intro operand member
  simp [(plain operand member).nonempty]

end Operands

/-- Operands that can be written for a rule: one for each slot, and more than one only where the
rule is not given all of them as one. -/
structure Rule.Takes (rule : Rule) (policy : OperandPolicy) (operands : List (List Char)) :
    Prop where
  fits : List.Forall₂ (fun slot operand => slot.accepts operand = true) rule.slots operands
  plain : ∀ operand ∈ operands, IsOperand operand
  noColon : ∀ operand ∈ operands.head?, operand.head? ≠ some ':'
  apart : policy.wholeOperand = true → rule.freeForm = true → operands.length < 2

namespace Rule.Takes

variable {rule : Rule} {policy : OperandPolicy} {operands : List (List Char)}
  (takes : rule.Takes policy operands)
include takes

theorem operandsFor_operandText (nonempty : operands ≠ []) (column : Nat) (word : List Char) :
    operandsFor policy [] ⟨column, word, operandText operands⟩ rule = operands := by
  rw [operandsFor]
  split
  case isTrue whole =>
    obtain ⟨policyWhole, freeForm⟩ := Bool.and_eq_true_iff.1 whole
    have short := takes.apart policyWhole freeForm
    obtain ⟨operand, rest, rfl⟩ := List.exists_cons_of_ne_nil nonempty
    obtain rfl : rest = [] := by
      rw [List.length_cons] at short
      exact List.eq_nil_of_length_eq_zero (by omega)
    have isOperand := takes.plain operand List.mem_cons_self
    simp [Instruction.operandText, operandText_singleton, isOperand.trim_eq, isOperand.nonempty]
  case isFalse =>
    rw [AsmLint.operands, commaPieces_nil, splitBy_operandText takes.plain nonempty,
      trimmed_operands takes.plain]

theorem accepts {code word : List Char} {column : Nat}
    (place : InstructionAt code ⟨column, word, operandText operands⟩)
    (unquoted : literals code = []) (same : sameIgnoringCase word rule.head.toList = true) :
    rule.Accepts policy code ⟨column, word, operandText operands⟩ where
  head _ := sameIgnoringCase_iff.2 (sameIgnoringCase_iff.1 same).symm
  bare empty := by
    have fits := takes.fits
    rw [empty, List.forall₂_nil_left_iff] at fits
    rw [fits]
    exact trim_eq_nil_iff.2 (by simp [operandText])
  operands slots := by
    have nonempty : operands ≠ [] := by
      rintro rfl
      exact slots (List.forall₂_nil_right_iff.1 takes.fits)
    rw [← operandsFor_eq place, unquoted, takes.operandsFor_operandText nonempty]
    exact takes.fits

end Rule.Takes

def Grammar.Lists (grammar : Grammar) (rule : Rule) : Prop :=
  ∃ usage, grammar.lookup rule.head = some usage ∧ .ok rule ∈ usage.rules

theorem plain_line {front word : List Char} {operands : List (List Char)} (isFront : IsFront front)
    (mnemonic : IsMnemonic word) (plain : ∀ operand ∈ operands, IsOperand operand) :
    AllIn isPlain (front ++ instructionText word operands) :=
  allIn_append.2 ⟨isFront.plain, allIn_append.2 ⟨mnemonic.allIn.plain (by decide),
    plain_operandText fun operand member => (plain operand member).plain⟩⟩

theorem not_misused_of_takes {table : RuleTable} {policy : OperandPolicy} {rule : Rule}
    {front word : List Char} {operands : List (List Char)}
    (listed : (Grammar.ofTable table policy).Lists rule) (mnemonic : IsMnemonic rule.head.toList)
    (takes : rule.Takes policy operands) (isFront : IsFront front)
    (same : sameIgnoringCase word rule.head.toList = true) :
    ¬ Misused table policy (codePart (front ++ instructionText word operands)) := by
  obtain ⟨usage, found, member⟩ := listed
  have raised : upper word = rule.head.toList :=
    (sameIgnoringCase_iff.1 same).trans (Grammar.upper_head_of_lookup found member)
  have isMnemonic : IsMnemonic word := .of_upper (raised ▸ mnemonic)
  have plain := plain_line isFront isMnemonic takes.plain
  have place := instructionAt_instructionText isFront isMnemonic takes.plain takes.noColon
  rw [codePart_eq_self plain]
  rintro ⟨instruction, usage', place', found', refused⟩
  -- The line has one instruction, and its word finds the rules that the head of the rule finds.
  obtain rfl : _ = instruction := place.eq place'
  have sameWord : upperName (String.ofList word) = upperName rule.head := by
    rw [upperName, upperName, String.ofList_inj, String.toList_ofList]
    exact sameIgnoringCase_iff.1 same
  obtain rfl : usage = usage' := Option.some.inj
    (found.symm.trans ((Grammar.lookup_congr _ sameWord).symm.trans found'))
  exact refused ⟨rule, member, takes.accepts place (literals_eq_nil plain) same⟩

section Composite

variable {before after operand middle : List Char}

theorem gap?_eq_some_iff :
    gap? before after operand = some middle ↔
      ∃ left right, operand = left ++ middle ++ right ∧ sameLetters left before = true ∧
        sameLetters right after = true ∧ middle ≠ [] ∧ '\n' ∉ middle := by
  simp only [gap?, Option.ite_none_right_eq_some, Bool.and_eq_true, Option.some.injEq,
    Bool.not_eq_true', List.isEmpty_eq_false_iff, List.contains_eq_mem, decide_eq_false_iff_not]
  constructor
  · rintro ⟨⟨⟨⟨left, right⟩, nonempty⟩, oneLine⟩, rfl⟩
    refine ⟨_, _, ?_, left, right, nonempty, oneLine⟩
    rw [List.append_assoc, List.take_append_drop, List.take_append_drop]
  · rintro ⟨left, right, rfl, sameLeft, sameRight, nonempty, oneLine⟩
    have leftLength := length_eq_of_sameLetters sameLeft
    have rightLength := length_eq_of_sameLetters sameRight
    have inner : (left ++ middle ++ right).drop before.length = middle ++ right := by
      rw [← leftLength, List.append_assoc, List.drop_left]
    have size : (middle ++ right).length - after.length = middle.length := by
      rw [List.length_append, rightLength]
      omega
    have outer : (left ++ middle ++ right).take before.length = left := by
      rw [← leftLength, List.append_assoc, List.take_left]
    rw [inner, size, outer, List.take_left, List.drop_left]
    exact ⟨⟨⟨⟨sameLeft, sameRight⟩, nonempty⟩, oneLine⟩, rfl⟩

theorem optionBody?_of_cuts {keyed : KeyedUnit} {unit : List Char} (cuts : keyed.Cuts unit) :
    optionBody? unit = none := by
  have found := keyedUnit_of?_iff.2 cuts
  unfold optionBody?
  split
  · simp [KeyedUnit.of?, isWordChar] at found
  · rfl

theorem ofUnit_composite {legend : Legend} {policy : OperandPolicy} {unit key : List Char}
    (cuts : KeyedUnit.Cuts ⟨before, key, after⟩ unit) (around : before ≠ [] ∨ after ≠ [])
    (composite : policy.compositePatterns = true) :
    Slot.ofUnit legend policy unit = .pattern (String.ofList unit) before after
      (.ofEntry key (legend.get? (String.ofList key))) := by
  have fixed : ¬ (before.isEmpty && after.isEmpty) = true := by
    simp only [Bool.and_eq_true, List.isEmpty_iff]
    grind
  rw [Slot.ofUnit, optionBody?_of_cuts cuts, keyedUnit_of?_iff.2 cuts]
  simp only [if_neg fixed, if_pos composite]

theorem ofUnit_bare {legend : Legend} {policy : OperandPolicy} {unit key : List Char}
    (cuts : KeyedUnit.Cuts ⟨[], key, []⟩ unit) :
    Slot.ofUnit legend policy unit = .ofKey key (legend.get? (String.ofList key)) := by
  rw [Slot.ofUnit, optionBody?_of_cuts cuts, keyedUnit_of?_iff.2 cuts]
  rfl

theorem accepts_pattern_iff {template : String} {filling : Filling} :
    (Slot.pattern template before after filling).accepts operand = true ↔
      ∃ left middle right, operand = left ++ middle ++ right ∧ sameLetters left before = true ∧
        sameLetters right after = true ∧ middle ≠ [] ∧ '\n' ∉ middle ∧
        filling.accepts middle = true := by
  constructor
  · intro accepted
    rw [Slot.accepts] at accepted
    split at accepted
    case h_1 middle found =>
      obtain ⟨left, right, split, onLeft, onRight, nonempty, oneLine⟩ := gap?_eq_some_iff.1 found
      exact ⟨left, middle, right, split, onLeft, onRight, nonempty, oneLine, accepted⟩
    case h_2 => contradiction
  · rintro ⟨left, middle, right, split, onLeft, onRight, nonempty, oneLine, fills⟩
    rw [Slot.accepts, gap?_eq_some_iff.2 ⟨left, right, split, onLeft, onRight, nonempty, oneLine⟩]
    exact fills

end Composite

/-- A line that is written by a rule is not reported for its usage: the word of the rule in any
letter case, after blanks or a label, and operands that the slots take. A unit with fixed parts
around its key takes exactly those parts around a text that the key stands for, even if this text
repeats them. -/
theorem rule_instances_accepted (table : RuleTable) (policy : OperandPolicy) :
    (∀ rule front word operands, (Grammar.ofTable table policy).Lists rule →
      IsMnemonic rule.head.toList → rule.Takes policy operands → IsFront front →
      sameIgnoringCase word rule.head.toList = true →
      ∀ lines line, lines[line]? = some (front ++ instructionText word operands) →
        line ∉ misusedLines (validateLines (.ofTable table policy) lines).issues) ∧
    (∀ unit before key after, KeyedUnit.Cuts ⟨before, key, after⟩ unit → before ≠ [] ∨ after ≠ [] →
      policy.compositePatterns = true →
      ∀ operand, (Slot.ofUnit table.legend policy unit).accepts operand = true ↔
        ∃ left middle right, operand = left ++ middle ++ right ∧
          sameLetters left before = true ∧ sameLetters right after = true ∧
          middle ≠ [] ∧ '\n' ∉ middle ∧
          (Filling.ofEntry key (table.legend.get? (String.ofList key))).accepts middle = true) := by
  refine ⟨?_, ?_⟩
  · intro rule front word operands listed mnemonic takes isFront same lines line here reported
    obtain ⟨raw, here', misused⟩ := mem_misusedLines_iff.1 reported
    obtain rfl := Option.some.inj (here.symm.trans here')
    exact not_misused_of_takes listed mnemonic takes isFront same misused
  · intro unit before key after cuts around composite operand
    rw [ofUnit_composite cuts around composite]
    exact accepts_pattern_iff

/-- A labelled line in lower case whose second operand repeats the fixed text after the gap. -/
theorem rule_instance_with_repeated_part :
    let table : RuleTable := ⟨"1.0.0", "t",
      Dict.ofList [("r", .tokens ["A", "B"]), ("n", .categories [.byte])],
      Dict.ofList [("LD", ["LD %r, (%n+1)"])], Dict.empty, []⟩
    let lines := ["x: ld b, (2+1)+1)".toList]
    0 ∉ misusedLines (validateLines (.ofTable table ⟨true, true⟩) lines).issues := by
  intro table lines
  have ⟨accepted, composite⟩ := rule_instances_accepted table ⟨true, true⟩
  let rule : Rule := ⟨"LD %r, (%n+1)", "LD", [.registers "r" (upperSet ["A", "B"]),
    .ofUnit table.legend ⟨true, true⟩ "(%n+1)".toList]⟩
  have entry : table.entryFor? rule.head = some ("LD", ["LD %r, (%n+1)"]) := by decide
  have compiled : Rule.compile table.legend ⟨true, true⟩ "LD %r, (%n+1)" = .ok rule := by rfl
  have listed : (Grammar.ofTable table ⟨true, true⟩).Lists rule :=
    ⟨_, by rw [Grammar.lookup_ofTable, entry, Option.map_some], by simp [Usage.compile, compiled]⟩
  have gap : (Slot.ofUnit table.legend ⟨true, true⟩ "(%n+1)".toList).accepts
      "(2+1)+1)".toList = true := by
    apply (composite _ ['('] ['n'] ['+', '1', ')'] (keyedUnit_of?_iff.1 (by decide))
      (.inl (by decide)) rfl _).2
    exact ⟨['('], ['2', '+', '1', ')'], ['+', '1', ')'], by decide, by decide, by decide, by decide,
      by decide, by decide⟩
  have takes : rule.Takes ⟨true, true⟩ ["b".toList, "(2+1)+1)".toList] :=
    ⟨.cons (by decide) (.cons gap .nil), by decide, by decide, by decide⟩
  have front : IsFront "x: ".toList :=
    @IsFront.label [] 'x' [] [] [' '] (by decide) (by decide) (by decide) (by decide) (by decide)
  have head : ['L', 'D'] = rule.head.toList := by decide
  have mnemonic : IsMnemonic rule.head.toList := head ▸ .plain (by decide) (by decide)
  exact accepted rule _ "ld".toList _ listed mnemonic takes front (by decide) lines 0 (by decide)

end AsmLint
