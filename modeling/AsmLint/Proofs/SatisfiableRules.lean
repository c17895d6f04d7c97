import AsmLint.Proofs.OptionLists
import AsmLint.Proofs.RuleInstances

/-! Rules that a line can satisfy. A rule with a free-form slot is given all operands of a line as
one, so it is satisfied by some line exactly if this slot is its only one. Any other rule is
satisfied by its own text once its keys are filled in. -/

namespace AsmLint

section FreeForm

variable {policy : OperandPolicy} {rule : Rule}

theorem length_operandsFor_le (whole : policy.wholeOperand = true) (free : rule.freeForm = true)
    (quoted : List Extent) (instruction : Instruction) :
    (operandsFor policy quoted instruction rule).length ≤ 1 := by
  rw [operandsFor, whole, free, Bool.and_self, if_pos rfl]
  split <;> simp

theorem Slot.accepts_of_freeForm {slot : Slot} (free : slot.freeForm = true) (operand : List Char) :
    slot.accepts operand = true := by
  cases slot with
  | any => rfl
  | _ => simp [Slot.freeForm] at free

theorem Slot.exists_key_of_freeForm {legend : Legend} {unit : List Char}
    (free : (ofUnit legend policy unit).freeForm = true) :
    ∃ key kinds, unit = '%' :: key ∧
      legend.get? (String.ofList key) = some (.categories kinds) ∧
      kinds.contains .anything = true := by
  have made := madeFrom_ofUnit legend policy unit
  generalize ofUnit legend policy unit = slot at made free
  rcases made with ⟨-, rfl⟩ | ⟨-, rfl⟩ | @⟨key, cuts, rfl⟩ | ⟨-, -, rfl⟩ | ⟨-, rfl⟩
  case key =>
    cases found : legend.get? (String.ofList key) with
    | none => simp [found, ofKey, Slot.freeForm] at free
    | some entry =>
      cases entry with
      | tokens => simp [found, ofKey, Slot.freeForm] at free
      | categories kinds =>
        rw [found] at free
        exact ⟨key, kinds, by simpa using cuts.sign.split, found, free⟩
  all_goals simp [Slot.freeForm] at free

theorem length_slots_of_fits (whole : policy.wholeOperand = true) (free : rule.freeForm = true)
    {quoted : List Extent} {instruction : Instruction}
    (fits : mismatch? policy quoted instruction rule = none) : rule.slots.length = 1 := by
  obtain ⟨slot, member, -⟩ := List.any_eq_true.1 free
  have nonempty : rule.slots ≠ [] := List.ne_nil_of_mem member
  have bound := length_operandsFor_le whole free quoted instruction
  have positive := List.length_pos_iff.2 nonempty
  have sameLength : (operandsFor policy quoted instruction rule).length = rule.slots.length := by
    apply Classical.byContradiction
    intro differs
    rw [mismatch?] at fits
    split at fits
    · simp at fits
    · simp [nonempty, differs] at fits
  omega

theorem exists_slots_eq (free : rule.freeForm = true) (single : rule.slots.length = 1) :
    ∃ slot, rule.slots = [slot] ∧ slot.freeForm = true := by
  obtain ⟨slot, only⟩ := List.length_eq_one_iff.1 single
  refine ⟨slot, only, ?_⟩
  rw [Rule.freeForm, only] at free
  simpa using free

theorem takes_of_freeForm (free : rule.freeForm = true) (single : rule.slots.length = 1) :
    rule.Takes policy [['0']] where
  fits := by
    obtain ⟨slot, only, slotFree⟩ := exists_slots_eq free single
    rw [only]
    exact .cons (Slot.accepts_of_freeForm slotFree _) .nil
  plain := by decide
  noColon := by decide
  apart _ _ := by decide

theorem IsMnemonic.upper {word : List Char} (mnemonic : IsMnemonic word) :
    IsMnemonic (upper word) := by
  have isWord (c : Char) (letter : c.isAlpha = true) : isWordChar c = true := by
    simp [isWordChar, Char.isAlphanum, letter]
  have isLetter := @inClass_toUpper Char.isAlpha fun _ letter => letter
  cases mnemonic with
  | @plain c stem letter inside =>
    exact .plain (by rw [isLetter, letter]) ((allIn_upper isWord).2 inside)
  | @sized c stem width letter inside nonempty letters =>
    have raised : AsmLint.upper (c :: stem ++ '.' :: width) =
        c.toUpper :: AsmLint.upper stem ++ '.' :: AsmLint.upper width := by
      simp [AsmLint.upper]
    rw [raised]
    exact .sized (by rw [isLetter, letter]) ((allIn_upper isWord).2 inside)
      (by simpa [AsmLint.upper] using nonempty) ((allIn_upper fun _ letter => letter).2 letters)

theorem Rule.Takes.exists_accepted {word : List Char} {operands : List (List Char)}
    (takes : rule.Takes policy operands) (mnemonic : IsMnemonic word)
    (widths : '.' ∈ rule.head.toList ∨ '.' ∈ word →
      sameIgnoringCase rule.head.toList word = true) :
    ∃ code instruction, codePart code = code ∧ InstructionAt code instruction ∧
      instruction.mnemonic = word ∧ rule.Accepts policy code instruction := by
  have front : IsFront [] := .blanks (by simp)
  have place := instructionAt_instructionText front mnemonic takes.plain takes.noColon
  have plain := plain_line front mnemonic takes.plain
  -- Nothing but the widths depends on the word of the rule.
  let renamed : Rule := { rule with head := String.ofList word }
  have takes' : renamed.Takes policy operands :=
    ⟨takes.fits, takes.plain, takes.noColon, takes.apart⟩
  have same : sameIgnoringCase word renamed.head.toList = true := by
    rw [sameIgnoringCase_iff, String.toList_ofList]
  have accepted := takes'.accepts place (literals_eq_nil plain) same
  exact ⟨_, _, codePart_eq_self plain, place, rfl, widths, accepted.bare, accepted.operands⟩

theorem exists_fits_iff_of_freeForm (whole : policy.wholeOperand = true)
    (free : rule.freeForm = true) (raised : upper rule.head.toList = rule.head.toList) :
    (∃ quoted instruction, mismatch? policy quoted instruction rule = none) ↔
      rule.slots.length = 1 := by
  constructor
  · rintro ⟨quoted, instruction, fits⟩
    exact length_slots_of_fits whole free fits
  · intro single
    obtain ⟨slot, only, slotFree⟩ := exists_slots_eq free single
    refine ⟨[], ⟨0, rule.head.toList, ['0']⟩, ?_⟩
    have heads : headMatches rule rule.head.toList = true := by
      rw [headMatches_iff raised]
      exact fun _ => sameIgnoringCase_iff.2 rfl
    have one : operandsFor policy [] ⟨0, rule.head.toList, ['0']⟩ rule = [['0']] := by
      rw [operandsFor, whole, free]
      rfl
    rw [mismatch?, heads, one, only]
    simp [refusedOperand?, Slot.accepts_of_freeForm slotFree]

theorem exists_accepted_iff_of_freeForm (whole : policy.wholeOperand = true)
    (free : rule.freeForm = true) (raised : upper rule.head.toList = rule.head.toList) :
    (∃ code instruction, codePart code = code ∧ InstructionAt code instruction ∧
        rule.Accepts policy code instruction) ↔
      rule.slots.length = 1 ∧ ('.' ∈ rule.head.toList → IsMnemonic rule.head.toList) := by
  constructor
  · rintro ⟨code, instruction, -, place, accepted⟩
    refine ⟨length_slots_of_fits whole free ((mismatch?_eq_none_iff place raised).2 accepted), ?_⟩
    intro dotted
    obtain ⟨-, -, -, -, -, mnemonic⟩ := place
    have same := sameIgnoringCase_iff.1 (accepted.head (.inl dotted))
    rw [← raised, same]
    exact mnemonic.upper
  · rintro ⟨single, dotted⟩
    have takes : rule.Takes policy [['0']] := takes_of_freeForm free single
    -- A head without a dot asks nothing of the word on the line, so any mnemonic does.
    obtain ⟨word, mnemonic, widths⟩ : ∃ word, IsMnemonic word ∧
        ('.' ∈ rule.head.toList ∨ '.' ∈ word →
          sameIgnoringCase rule.head.toList word = true) := by
      by_cases dot : '.' ∈ rule.head.toList
      · exact ⟨_, dotted dot, fun _ => sameIgnoringCase_iff.2 rfl⟩
      · exact ⟨['X'], .plain (by decide) (by simp), by simp [dot]⟩
    obtain ⟨code, instruction, uncommented, place, -, accepted⟩ :=
      takes.exists_accepted mnemonic widths
    exact ⟨code, instruction, uncommented, place, accepted⟩

end FreeForm

section FilledUnits

def isSolidChar (c : Char) : Bool := isPlain c && !isSpace c && c != ',' && c != ':'

def isSolid (text : List Char) : Bool := !text.isEmpty && text.all isSolidChar

theorem isSolid_iff {text : List Char} :
    isSolid text = true ↔ text ≠ [] ∧ AllIn isSolidChar text := by
  simp [isSolid, AllIn]

/-- What can be written for a key: the first token of its entry, or a digit where the entry names no
tokens. A key without an entry is written as it is. -/
def keySample (legend : Legend) (key : List Char) : List Char :=
  match legend.get? (String.ofList key) with
  | some (.tokens spellings) => (spellings.headD "").toList
  | some (.categories _) => ['0']
  | none => key

def filledUnit (legend : Legend) (unit : List Char) : List Char :=
  match optionBody? unit with
  | some body => (spacedWords body).headD []
  | none =>
    match KeyedUnit.of? unit with
    | none => unit
    | some ⟨before, key, after⟩ => before ++ keySample legend key ++ after

def HasSamples (legend : Legend) : Prop :=
  ∀ key spellings, legend.get? key = some (.tokens spellings) →
    isSolid (spellings.headD "").toList = true

def isFillable (unit : List Char) : Bool :=
  match optionBody? unit with
  | some body => isSolid ((spacedWords body).headD [])
  | none => isSolid unit

theorem isOperand_of_isSolid {text : List Char} (solid : isSolid text = true) : IsOperand text := by
  obtain ⟨nonempty, inside⟩ := isSolid_iff.1 solid
  have parts (c : Char) (member : c ∈ text) :
      isPlain c = true ∧ isSpace c = false ∧ c ≠ ',' := by
    have solidChar := inside c member
    simp only [isSolidChar, Bool.and_eq_true, Bool.not_eq_true', bne_iff_ne] at solidChar
    exact ⟨solidChar.1.1.1, solidChar.1.1.2, solidChar.1.2⟩
  refine ⟨nonempty, fun c member => (parts c member).1, fun comma => (parts _ comma).2.2 rfl, ?_,
    ?_⟩
  · exact fun c first => (parts c (List.mem_of_head? first)).2.1
  · exact fun c last => (parts c (List.mem_of_getLast? last)).2.1

theorem head?_ne_colon {text : List Char} (solid : isSolid text = true) :
    text.head? ≠ some ':' := by
  intro colon
  have refused := (isSolid_iff.1 solid).2 ':' (List.mem_of_head? colon)
  revert refused
  decide

theorem lineFeed_not_mem {text : List Char} (solid : isSolid text = true) : '\n' ∉ text := by
  intro member
  have refused := (isSolid_iff.1 solid).2 '\n' member
  revert refused
  decide

theorem isSolidChar_of_isWordChar {c : Char} (word : isWordChar c = true) :
    isSolidChar c = true := by
  have plain : isPlain c = true := isPlain_of_inClass (by decide) word
  have noSpace : isSpace c = false := isSpace_of_isNameChar (by simp [isNameChar_iff, word])
  have noComma : c ≠ ',' := by
    rintro rfl
    revert word
    decide
  have noColon : c ≠ ':' := by
    rintro rfl
    revert word
    decide
  simp [isSolidChar, plain, noSpace, noComma, noColon]

variable {legend : Legend} {policy : OperandPolicy} {unit : List Char}

theorem isSolid_keySample (samples : HasSamples legend) {keyed : KeyedUnit}
    (cuts : keyed.Cuts unit) : isSolid (keySample legend keyed.key) = true := by
  rw [keySample]
  split
  case h_1 spellings found => exact samples _ spellings found
  case h_2 => decide
  case h_3 =>
    refine isSolid_iff.2 ⟨cuts.nonempty, fun c member => ?_⟩
    exact isSolidChar_of_isWordChar (cuts.run.inside c member)

theorem filledUnit_of_cuts {keyed : KeyedUnit} (cuts : keyed.Cuts unit) :
    filledUnit legend unit = keyed.before ++ keySample legend keyed.key ++ keyed.after := by
  rw [filledUnit, optionBody?_of_cuts cuts, keyedUnit_of?_iff.2 cuts]

theorem isSolid_filledUnit (samples : HasSamples legend) (fillable : isFillable unit = true) :
    isSolid (filledUnit legend unit) = true := by
  rw [isFillable] at fillable
  split at fillable
  case h_1 body found => rwa [filledUnit, found]
  case h_2 none =>
    cases found : KeyedUnit.of? unit with
    | none => rwa [filledUnit, none, found]
    | some keyed =>
      have cuts := keyedUnit_of?_iff.1 found
      obtain ⟨nonempty, sample⟩ := isSolid_iff.1 (isSolid_keySample samples cuts)
      have inside := (isSolid_iff.1 fillable).2
      rw [cuts.sign.split, allIn_append, allIn_cons, allIn_append] at inside
      rw [filledUnit_of_cuts cuts, isSolid_iff]
      refine ⟨by simp [nonempty], ?_⟩
      simp only [allIn_append]
      exact ⟨⟨inside.1, sample⟩, inside.2.2.2⟩

theorem contains_upperSet_headD {spellings : List String}
    (solid : isSolid (spellings.headD "").toList = true) :
    (upperSet spellings).contains (String.ofList (upper (spellings.headD "").toList)) = true := by
  cases spellings with
  | nil => simp [isSolid] at solid
  | cons first others =>
    rw [upperSet, NameSet.contains_ofList]
    exact List.mem_map_of_mem List.mem_cons_self

theorem accepts_keySample (samples : HasSamples legend) (key : List Char) :
    (Filling.ofEntry key (legend.get? (String.ofList key))).accepts (keySample legend key) = true
    := by
  rw [keySample]
  split
  case h_1 spellings found =>
    rw [found]
    exact contains_upperSet_headD (samples _ spellings found)
  case h_2 found =>
    rw [found]
    rfl
  case h_3 missing =>
    rw [missing]
    exact sameIgnoringCase_iff.2 (by rw [String.toList_ofList, upper_upper])

theorem Slot.accepts_ofKey (key text : List Char) (entry : Option LegendEntry) :
    (ofKey key entry).accepts text = (Filling.ofEntry key entry).accepts text := by
  rcases entry with _ | _ | _ <;> rfl

theorem accepts_filledUnit (samples : HasSamples legend) (fillable : isFillable unit = true)
    (composite : policy.compositePatterns = true) :
    (Slot.ofUnit legend policy unit).accepts (filledUnit legend unit) = true := by
  rw [isFillable] at fillable
  split at fillable
  case h_1 body found =>
    rw [Slot.ofUnit, filledUnit, found]
    cases words : spacedWords body with
    | nil => simp [words, isSolid] at fillable
    | cons word others =>
      refine contains_optionSet.2 ⟨word, mem_spacedWords_iff.1 (by simp [words]), ?_⟩
      simp only [words, List.headD_cons]
  case h_2 none =>
    cases found : KeyedUnit.of? unit with
    | none =>
      rw [Slot.ofUnit, filledUnit, none, found]
      exact sameIgnoringCase_iff.2 (by rw [String.toList_ofList, upper_upper])
    | some keyed =>
      obtain ⟨before, key, after⟩ := keyed
      have cuts := keyedUnit_of?_iff.1 found
      have sample := isSolid_keySample samples cuts
      have accepted := accepts_keySample samples key
      rw [filledUnit_of_cuts cuts]
      by_cases bare : before = [] ∧ after = []
      · obtain ⟨rfl, rfl⟩ := bare
        rw [ofUnit_bare cuts, Slot.accepts_ofKey, List.nil_append, List.append_nil]
        exact accepted
      · have around : before ≠ [] ∨ after ≠ [] := Decidable.not_and_iff_not_or_not.1 bare
        rw [ofUnit_composite cuts around composite, accepts_pattern_iff]
        exact ⟨before, _, after, rfl, sameLetters_refl _, sameLetters_refl _,
          (isSolid_iff.1 sample).1, lineFeed_not_mem sample, accepted⟩

theorem takes_filledUnits {text : String} {rule : Rule} {head : List Char} {rest : List (List Char)}
    (samples : HasSamples legend) (composite : policy.compositePatterns = true)
    (compiled : Rule.compile legend policy text = .ok rule)
    (split : units text.toList = head :: rest)
    (fillable : ∀ unit ∈ operandUnits rest, isFillable unit = true)
    (single : policy.wholeOperand = true → rule.freeForm = true → rule.slots.length < 2) :
    rule.Takes policy ((operandUnits rest).map (filledUnit legend)) := by
  obtain ⟨head', rest', split', rfl⟩ := compile_eq_ok_iff.1 compiled
  obtain ⟨rfl, rfl⟩ := List.cons.inj (split.symm.trans split')
  have solid : ∀ operand ∈ (operandUnits rest).map (filledUnit legend), isSolid operand = true := by
    intro operand member
    obtain ⟨unit, listed, rfl⟩ := List.mem_map.1 member
    exact isSolid_filledUnit samples (fillable unit listed)
  refine ⟨?_, fun operand member => isOperand_of_isSolid (solid operand member), ?_, ?_⟩
  · rw [List.forall₂_map_left_iff, List.forall₂_map_right_iff, List.forall₂_same]
    exact fun unit listed => accepts_filledUnit samples (fillable unit listed) composite
  · exact fun operand first => head?_ne_colon (solid operand (List.mem_of_head? first))
  · intro whole free
    have short := single whole free
    simpa using short

end FilledUnits

end AsmLint
