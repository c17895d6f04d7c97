import AsmLint.Proofs.Definitions

/-! The statement of a line and its first word. The statement is what follows the label, if there is
one, and blanks. Its first word is a mnemonic if the whole run of name characters has the form of
one, so a mnemonic never stops in the middle of a name. -/

namespace AsmLint

def AfterLabel (code tail : List Char) : Prop :=
  ∃ token rest gap, LeadsWith code token rest ∧ LongestRun isBlank rest gap (':' :: tail)

/-- `text` is the statement of the line, and `before` is the label and the blanks in front of it. -/
def StatementAt (code before text : List Char) : Prop :=
  code = before ++ text ∧ ∃ start blanks,
    (AfterLabel code start ∨ start = code ∧ ¬ ∃ tail, AfterLabel code tail) ∧
      LongestRun isBlank start blanks text

/-- A letter, then letters, digits and underscores, and perhaps a dot with letters after it. -/
inductive IsMnemonic : List Char → Prop where
  | plain {c stem} : c.isAlpha = true → AllIn isWordChar stem → IsMnemonic (c :: stem)
  | sized {c stem width} : c.isAlpha = true → AllIn isWordChar stem → width ≠ [] →
      AllIn Char.isAlpha width → IsMnemonic (c :: stem ++ '.' :: width)

def InstructionAt (code : List Char) (instruction : Instruction) : Prop :=
  ∃ before text, StatementAt code before text ∧ before.length = instruction.column ∧
    LongestRun isNameChar text instruction.mnemonic instruction.rest ∧
    IsMnemonic instruction.mnemonic

theorem afterColon?_iff {lead : Lead} {tail : List Char} :
    lead.afterColon? = some tail ↔
      ∃ gap, LongestRun isBlank lead.rest gap (':' :: tail) := by
  simp only [longestRun_iff, exists_and_right, exists_eq', true_and, Lead.afterColon?,
    Lead.following]
  split <;> simp_all

theorem bind_afterColon?_iff {code tail : List Char} :
    (Lead.of? code).bind Lead.afterColon? = some tail ↔ AfterLabel code tail := by
  simp only [Option.bind_eq_some_iff, lead_of?_iff, afterColon?_iff, AfterLabel]
  constructor
  · rintro ⟨lead, leads, gap, colon⟩
    exact ⟨lead.token, lead.rest, gap, leads, colon⟩
  · rintro ⟨token, rest, gap, leads, colon⟩
    exact ⟨⟨token.start, token.text, rest⟩, leads, gap, colon⟩

theorem AfterLabel.suffix {code tail : List Char} (label : AfterLabel code tail) :
    tail <:+ code := by
  obtain ⟨token, rest, gap, ⟨indent, text, blanks, -, name, -⟩, colon⟩ := label
  refine ⟨indent ++ token.text ++ gap ++ [':'], ?_⟩
  rw [blanks.split, name.split, colon.split]
  simp

theorem statementAt_iff {code before text : List Char} :
    StatementAt code before text ↔ code = before ++ text ∧ statement code = text := by
  apply and_congr_right
  intro _
  constructor
  · rintro ⟨start, blanks, label | ⟨rfl, noLabel⟩, run⟩
    · rw [statement, bind_afterColon?_iff.2 label, Option.getD_some, run.dropWhile_eq]
    · have none : (Lead.of? start).bind Lead.afterColon? = none := by
        apply Option.eq_none_iff_forall_ne_some.2
        intro tail label
        exact noLabel ⟨tail, bind_afterColon?_iff.1 label⟩
      rw [statement, none, Option.getD_none, run.dropWhile_eq]
  · rintro rfl
    rw [statement]
    cases found : (Lead.of? code).bind Lead.afterColon? with
    | none =>
      refine ⟨code, _, .inr ⟨rfl, ?_⟩, longestRun_takeWhile isBlank code⟩
      rintro ⟨tail, label⟩
      rw [bind_afterColon?_iff.2 label] at found
      contradiction
    | some tail =>
      exact ⟨tail, _, .inl (bind_afterColon?_iff.1 found), longestRun_takeWhile isBlank tail⟩

theorem statement_suffix (code : List Char) : statement code <:+ code := by
  rw [statement]
  cases found : (Lead.of? code).bind Lead.afterColon? with
  | none => exact List.dropWhile_suffix _
  | some tail =>
    exact (List.dropWhile_suffix _).trans (bind_afterColon?_iff.1 found).suffix

theorem isNameChar_of_isWordChar {c : Char} (wordChar : isWordChar c = true) :
    isNameChar c = true := by
  rw [isNameChar_iff, wordChar, Bool.true_or]

theorem isNameChar_of_isAlpha {c : Char} (letter : c.isAlpha = true) : isNameChar c = true := by
  simp [isNameChar, Char.isAlphanum, letter]

theorem IsMnemonic.allIn {word : List Char} (mnemonic : IsMnemonic word) :
    AllIn isNameChar word := by
  cases mnemonic with
  | plain letter stem =>
    exact allIn_cons.2 ⟨isNameChar_of_isAlpha letter,
      fun c member => isNameChar_of_isWordChar (stem c member)⟩
  | sized letter stem nonempty width =>
    refine allIn_append.2 ⟨allIn_cons.2 ⟨isNameChar_of_isAlpha letter,
      fun c member => isNameChar_of_isWordChar (stem c member)⟩, allIn_cons.2 ⟨by decide, ?_⟩⟩
    exact fun c member => isNameChar_of_isAlpha (width c member)

theorem IsMnemonic.ne_nil {word : List Char} (mnemonic : IsMnemonic word) : word ≠ [] := by
  cases mnemonic <;> simp

theorem splitWidth_append (text : List Char) :
    (splitWidth text).1 ++ (splitWidth text).2 = text := by
  fun_cases splitWidth text with
  | case1 c rest letter => simp
  | case2 => rfl
  | case3 => rfl

theorem isMnemonic_splitWidth {c : Char} {stem : List Char} (letter : c.isAlpha = true)
    (inside : AllIn isWordChar stem) (text : List Char) :
    IsMnemonic (c :: stem ++ (splitWidth text).1) := by
  fun_cases splitWidth text with
  | case1 d rest first =>
    refine .sized letter inside (by simp) ?_
    exact allIn_cons.2 ⟨first, (longestRun_takeWhile Char.isAlpha rest).inside⟩
  | case2 => simpa using IsMnemonic.plain letter inside
  | case3 => simpa using IsMnemonic.plain letter inside

theorem splitWidth_of_startsOutside {rest : List Char} (outside : StartsOutside isNameChar rest) :
    splitWidth rest = ([], rest) := by
  fun_cases splitWidth rest with
  | case1 c rest letter => simp [isNameChar] at outside
  | case2 => rfl
  | case3 => rfl

theorem splitWidth_sized {width rest : List Char} (nonempty : width ≠ [])
    (letters : AllIn Char.isAlpha width) (outside : StartsOutside isNameChar rest) :
    splitWidth ('.' :: (width ++ rest)) = ('.' :: width, rest) := by
  obtain ⟨c, width, rfl⟩ := List.exists_cons_of_ne_nil nonempty
  obtain ⟨first, letters⟩ := allIn_cons.1 letters
  have run : LongestRun Char.isAlpha (width ++ rest) width rest :=
    ⟨rfl, letters, outside.mono fun _ => isNameChar_of_isAlpha⟩
  simp [splitWidth, first, run.takeWhile_eq, run.dropWhile_eq]

theorem instruction_of?_of_mnemonic {code text rest : List Char} {mnemonic : List Char}
    (here : statement code = text) (run : LongestRun isNameChar text mnemonic rest)
    (isMnemonic : IsMnemonic mnemonic) :
    Instruction.of? code = some ⟨code.length - text.length, mnemonic, rest⟩ := by
  have ends : rest.head?.any isNameChar = false := startsOutside_iff_any.1 run.stops
  have noWord : StartsOutside isWordChar rest := run.stops.mono fun _ => isNameChar_of_isWordChar
  cases isMnemonic with
  | @plain c stem letter inside =>
    have word : LongestRun isWordChar (stem ++ rest) stem rest := ⟨rfl, inside, noWord⟩
    simp [Instruction.of?, here, run.split, letter, word.takeWhile_eq, word.dropWhile_eq,
      splitWidth_of_startsOutside run.stops, ends]
  | @sized c stem width letter inside nonempty letters =>
    have word : LongestRun isWordChar (stem ++ '.' :: (width ++ rest)) stem
        ('.' :: (width ++ rest)) := ⟨rfl, inside, startsOutside_cons.2 (by decide)⟩
    simp [Instruction.of?, here, run.split, letter, word.takeWhile_eq, word.dropWhile_eq,
      splitWidth_sized nonempty letters run.stops, ends]

theorem mnemonic_of_instruction_of? {code : List Char} {instruction : Instruction}
    (found : Instruction.of? code = some instruction) :
    LongestRun isNameChar (statement code) instruction.mnemonic instruction.rest ∧
      IsMnemonic instruction.mnemonic := by
  simp only [Instruction.of?] at found
  cases text : statement code with
  | nil => simp [text] at found
  | cons c tail =>
    simp only [text, Option.ite_none_right_eq_some, Option.ite_none_left_eq_some] at found
    obtain ⟨letter, ends, same⟩ := found
    obtain rfl := Option.some.inj same
    have word := longestRun_takeWhile isWordChar tail
    have mnemonic := isMnemonic_splitWidth letter word.inside (tail.dropWhile isWordChar)
    refine ⟨⟨?_, mnemonic.allIn, startsOutside_iff_any.2 (by simpa using ends)⟩, mnemonic⟩
    simp [splitWidth_append]

theorem instruction_of?_iff {code : List Char} {instruction : Instruction} :
    Instruction.of? code = some instruction ↔ InstructionAt code instruction := by
  constructor
  · intro found
    obtain ⟨run, mnemonic⟩ := mnemonic_of_instruction_of? found
    have same := instruction_of?_of_mnemonic rfl run mnemonic
    rw [found, Option.some.injEq] at same
    obtain ⟨before, split⟩ := statement_suffix code
    refine ⟨before, _, statementAt_iff.2 ⟨split.symm, rfl⟩, ?_, run, mnemonic⟩
    have length := congrArg List.length split
    have column := congrArg Instruction.column same
    simp only [List.length_append] at length column
    omega
  · rintro ⟨before, text, place, column, run, mnemonic⟩
    obtain ⟨split, here⟩ := statementAt_iff.1 place
    rw [instruction_of?_of_mnemonic here run mnemonic]
    have length := congrArg List.length split
    rw [List.length_append] at length
    have sameColumn : code.length - text.length = instruction.column := by omega
    rw [sameColumn]

theorem InstructionAt.eq {code : List Char} {instruction other : Instruction}
    (place : InstructionAt code instruction) (same : InstructionAt code other) :
    instruction = other :=
  Option.some.inj ((instruction_of?_iff.2 place).symm.trans (instruction_of?_iff.2 same))

theorem InstructionAt.split {code : List Char} {instruction : Instruction}
    (place : InstructionAt code instruction) :
    ∃ before, code = before ++ instruction.mnemonic ++ instruction.rest ∧
      before.length = instruction.column := by
  obtain ⟨before, text, ⟨split, -⟩, column, run, -⟩ := place
  exact ⟨before, by rw [split, run.split, List.append_assoc], column⟩

end AsmLint
