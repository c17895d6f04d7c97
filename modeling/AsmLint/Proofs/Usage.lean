import AsmLint.Proofs.Findings
import AsmLint.Proofs.Names
import AsmLint.Proofs.Statement
import AsmLint.Proofs.Vocabulary
import Mathlib.Data.List.Forall2

/-! When a rule accepts an instruction, said of the code of the line: which commas separate
operands, which operands a rule is given, and what each slot takes. An instruction is reported
exactly when it is looked up and no compiled rule accepts it. -/

namespace AsmLint

def SeparatorAt (code : List Char) (position : Nat) : Prop :=
  code[position]? = some ',' ∧ ¬ InLiteral code position (position + 1)

instance (code : List Char) (position : Nat) : Decidable (SeparatorAt code position) :=
  inferInstanceAs (Decidable (_ ∧ _))

def separators (code : List Char) (start : Nat) : List Nat :=
  (List.range' start (code.length - start)).filter fun position => SeparatorAt code position

def pieces (code : List Char) (start : Nat) : List Extent :=
  List.zipWith Extent.mk (start :: (separators code start).map (· + 1))
    (separators code start ++ [code.length])

theorem separators_length (code : List Char) : separators code code.length = [] := by
  simp [separators]

theorem separators_eq {code : List Char} {start : Nat} (bound : start < code.length) :
    separators code start =
      if SeparatorAt code start then start :: separators code (start + 1)
      else separators code (start + 1) := by
  have size : code.length - start = (code.length - (start + 1)) + 1 := by omega
  rw [separators, size, List.range'_succ, List.filter_cons]
  simp only [decide_eq_true_iff, separators]

theorem pieces_of_separatorAt {code : List Char} {start : Nat} (bound : start < code.length)
    (separator : SeparatorAt code start) :
    pieces code start = ⟨start, start⟩ :: pieces code (start + 1) := by
  rw [pieces, pieces, separators_eq bound, if_pos separator]
  simp

theorem pieces_of_not_separatorAt {code : List Char} {start : Nat} (bound : start < code.length)
    (inside : ¬ SeparatorAt code start) :
    ∃ stop later, start < stop ∧ pieces code start = ⟨start, stop⟩ :: later ∧
      pieces code (start + 1) = ⟨start + 1, stop⟩ :: later := by
  rw [pieces, pieces, separators_eq bound, if_neg inside]
  cases found : separators code (start + 1) with
  | nil => exact ⟨code.length, [], bound, by simp, by simp⟩
  | cons stop later =>
    have member : stop ∈ separators code (start + 1) := by simp [found]
    rw [separators, List.mem_filter, List.mem_range'_1] at member
    exact ⟨stop, _, by omega, rfl, rfl⟩

theorem slice_cons {code : List Char} {start stop : Nat} {c : Char}
    (here : code[start]? = some c) (less : start < stop) :
    (⟨start, stop⟩ : Extent).slice code = c :: (⟨start + 1, stop⟩ : Extent).slice code := by
  obtain ⟨bound, rfl⟩ := List.getElem?_eq_some_iff.1 here
  have size : stop - start = (stop - (start + 1)) + 1 := by omega
  rw [Extent.slice, Extent.slice, Extent.length, Extent.length, List.drop_eq_getElem_cons bound,
    size, List.take_succ_cons]

theorem commaPieces_eq {code before rest : List Char} (split : code = before ++ rest) :
    commaPieces (literals code) before.length rest =
      (pieces code before.length).map fun piece => piece.slice code := by
  induction rest generalizing before with
  | nil =>
    rw [List.append_nil] at split
    subst split
    simp [commaPieces, pieces, separators_length, Extent.slice]
  | cons c rest ih =>
    have later := @ih (before ++ [c]) (by simp [split])
    rw [List.length_append, List.length_singleton] at later
    have here : code[before.length]? = some c := by simp [split]
    have bound := (List.getElem?_eq_some_iff.1 here).1
    have separates : (c == ',' && !insideAny (literals code) before.length 1) = true ↔
        SeparatorAt code before.length := by
      rw [SeparatorAt, here, Bool.and_eq_true, Bool.not_eq_true', ← Bool.not_eq_true,
        insideAny_literals_iff, beq_iff_eq, Option.some.injEq]
    rw [commaPieces]
    by_cases separator : SeparatorAt code before.length
    · rw [if_pos (separates.2 separator), later, pieces_of_separatorAt bound separator]
      simp [Extent.slice, Extent.length]
    · obtain ⟨stop, others, less, first, second⟩ := pieces_of_not_separatorAt bound separator
      rw [if_neg (mt separates.1 separator), later, first, second]
      simp [slice_cons here less]

/-- The operands a rule is given. Under a policy that says so, a rule with a free-form slot is given
the whole text after the mnemonic as one operand. -/
def operandList (policy : OperandPolicy) (code : List Char) (instruction : Instruction)
    (rule : Rule) : List (List Char) :=
  let texts :=
    if policy.wholeOperand ∧ ∃ slot ∈ rule.slots, slot.freeForm then [instruction.rest]
    else (pieces code instruction.stop).map fun piece => piece.slice code
  (texts.map trim).filter fun operand => operand ≠ []

structure Rule.Accepts (rule : Rule) (policy : OperandPolicy) (code : List Char)
    (instruction : Instruction) : Prop where
  head : '.' ∈ rule.head.toList ∨ '.' ∈ instruction.mnemonic →
    sameIgnoringCase rule.head.toList instruction.mnemonic = true
  bare : rule.slots = [] → trim instruction.rest = []
  operands : rule.slots ≠ [] → List.Forall₂ (fun slot operand => slot.accepts operand = true)
    rule.slots (operandList policy code instruction rule)

def Misused (table : RuleTable) (policy : OperandPolicy) (code : List Char) : Prop :=
  ∃ instruction usage, InstructionAt code instruction ∧
    (Grammar.ofTable table policy).lookup instruction.name = some usage ∧
    ¬ ∃ rule, .ok rule ∈ usage.rules ∧ rule.Accepts policy code instruction

theorem operandsFor_eq {policy : OperandPolicy} {code : List Char} {instruction : Instruction}
    (place : InstructionAt code instruction) (rule : Rule) :
    operandsFor policy (literals code) instruction rule =
      operandList policy code instruction rule := by
  obtain ⟨before, split, column⟩ := place.split
  have stop : instruction.stop = (before ++ instruction.mnemonic).length := by
    rw [Instruction.stop, List.length_append, column]
  have freeForm : (policy.wholeOperand && rule.freeForm) = true ↔
      policy.wholeOperand = true ∧ ∃ slot ∈ rule.slots, slot.freeForm = true := by
    rw [Bool.and_eq_true, Rule.freeForm, List.any_eq_true]
  rw [operandsFor, operandList]
  by_cases whole : policy.wholeOperand = true ∧ ∃ slot ∈ rule.slots, slot.freeForm = true
  · rw [if_pos (freeForm.2 whole), if_pos whole, Instruction.operandText]
    by_cases empty : trim instruction.rest = [] <;> simp [empty]
  · rw [if_neg (mt freeForm.1 whole), if_neg whole, operands, stop, commaPieces_eq split]
    apply List.filter_congr
    intro operand _
    cases operand <;> rfl

theorem headMatches_iff {rule : Rule} {mnemonic : List Char}
    (raised : upper rule.head.toList = rule.head.toList) :
    headMatches rule mnemonic = true ↔
      ('.' ∈ rule.head.toList ∨ '.' ∈ mnemonic →
        sameIgnoringCase rule.head.toList mnemonic = true) := by
  have same : rule.head = String.ofList (upper mnemonic) ↔
      sameIgnoringCase rule.head.toList mnemonic = true := by
    rw [sameIgnoringCase_iff, raised, ← String.toList_inj, String.toList_ofList]
  rw [headMatches, Bool.or_eq_true, Bool.not_eq_true', beq_iff_eq, same, ← Bool.not_eq_true,
    Bool.or_eq_true, List.contains_iff_mem, List.contains_iff_mem]
  exact Decidable.imp_iff_not_or.symm

theorem refusedOperand?_eq_none_iff {slots : List Slot} {operands : List (List Char)}
    (length : operands.length = slots.length) :
    refusedOperand? slots operands = none ↔
      List.Forall₂ (fun slot operand => slot.accepts operand = true) slots operands := by
  induction slots generalizing operands with
  | nil =>
    obtain rfl := List.eq_nil_of_length_eq_zero length
    simp [refusedOperand?]
  | cons slot slots ih =>
    obtain ⟨operand, operands, rfl⟩ := List.exists_cons_of_length_eq_add_one length
    have shorter : operands.length = slots.length := by simpa using length
    rw [refusedOperand?, List.forall₂_cons]
    by_cases accepts : slot.accepts operand = true
    · simp [accepts, ih shorter]
    · simp [accepts]

theorem mismatch?_eq_none_iff {policy : OperandPolicy} {code : List Char}
    {instruction : Instruction} {rule : Rule} (place : InstructionAt code instruction)
    (raised : upper rule.head.toList = rule.head.toList) :
    mismatch? policy (literals code) instruction rule = none ↔
      rule.Accepts policy code instruction := by
  rw [mismatch?, operandsFor_eq place]
  by_cases head : headMatches rule instruction.mnemonic = true
  · have heads := (headMatches_iff raised).1 head
    rw [if_neg (by simp [head])]
    by_cases empty : rule.slots = []
    · rw [if_pos (by simp [empty]), ite_eq_left_iff]
      constructor
      · intro bare
        exact ⟨heads, fun _ => by simpa [Instruction.operandText] using bare,
          fun nonempty => absurd empty nonempty⟩
      · intro accepts
        simp [Instruction.operandText, accepts.bare empty]
    · rw [if_neg (by simp [empty])]
      have slotwise : rule.Accepts policy code instruction ↔ _ :=
        ⟨fun accepts => accepts.operands empty,
          fun operands => ⟨heads, fun bare => absurd bare empty, fun _ => operands⟩⟩
      rw [slotwise]
      by_cases length :
          (operandList policy code instruction rule).length = rule.slots.length
      · rw [if_neg (by simp [length]), Option.map_eq_none_iff, refusedOperand?_eq_none_iff length]
      · rw [if_pos (by simpa using length)]
        simp only [reduceCtorEq, false_iff]
        intro fitting
        exact length fitting.length_eq.symm
  · rw [if_pos (by simp [head])]
    simp only [reduceCtorEq, false_iff]
    intro accepts
    exact head ((headMatches_iff raised).2 accepts.head)

theorem mapM_eq_none_iff {check : Except RuleError Rule → Option Mismatch}
    {rules : List (Except RuleError Rule)} :
    rules.mapM check = none ↔ ∃ rule ∈ rules, check rule = none := by
  induction rules with
  | nil => simp
  | cons rule rules ih =>
    rw [List.mapM_cons, List.exists_mem_cons_iff]
    cases found : check rule with
    | none => simp
    | some mismatch =>
      rw [← ih]
      cases rules.mapM check <;> simp

/-- A rule that did not compile never fits, and so it cannot change what the others give. -/
theorem mismatches?_eq_none_iff {usage : Usage} {policy : OperandPolicy} {quoted : List Extent}
    {instruction : Instruction} :
    usage.mismatches? policy quoted instruction = none ↔
      ∃ rule, .ok rule ∈ usage.rules ∧ mismatch? policy quoted instruction rule = none := by
  rw [Usage.mismatches?, mapM_eq_none_iff]
  constructor
  · rintro ⟨_ | rule, member, fits⟩
    · simp [ruleMismatch?] at fits
    · exact ⟨rule, member, fits⟩
  · rintro ⟨rule, member, fits⟩
    exact ⟨.ok rule, member, fits⟩

theorem checkUsage_eq_none_of_blank {code : List Char} (blank : trim code = []) (grammar : Grammar)
    (line : Nat) : checkUsage grammar line code = none := by
  have noInstruction : Instruction.of? code = none := by
    apply Option.eq_none_iff_forall_ne_some.2
    intro instruction found
    obtain ⟨before, text, ⟨split, -⟩, -, run, mnemonic⟩ := instruction_of?_iff.1 found
    obtain ⟨c, member⟩ := List.exists_mem_of_ne_nil _ mnemonic.ne_nil
    have space := trim_eq_nil_iff.1 blank c (by simp [split, run.split, member])
    simp [isSpace_of_isNameChar (mnemonic.allIn c member)] at space
  rw [checkUsage, noInstruction, Option.bind_none]

theorem findingsOf_usage_checkLine (grammar : Grammar) (symbols : SymbolTable) (line : Nat)
    (raw : List Char) :
    findingsOf .invalidUsage (checkLine grammar symbols line raw) =
      (checkUsage grammar line (codePart raw)).toList := by
  unfold checkLine
  dsimp only
  split
  case isTrue blank =>
    rw [checkUsage_eq_none_of_blank (List.isEmpty_iff.1 blank)]
    rfl
  case isFalse =>
    have references :
        findingsOf .invalidUsage (checkReferences grammar symbols line (codePart raw)) = [] := by
      apply @findingsOf_eq_nil _ [.undefinedSymbol] _ (by decide)
      intro issue member
      exact ⟨_, by simp, isOf_checkReferences member⟩
    rw [findingsOf_append, references, List.append_nil]
    apply findingsOf_eq_self
    intro issue member
    exact isOf_checkUsage (Option.mem_toList.1 member)

theorem findingsOf_invalidUsage (grammar : Grammar) (lines : List (List Char)) :
    findingsOf .invalidUsage (validateLines grammar lines).issues =
      lines.zipIdx.flatMap fun numbered =>
        (checkUsage grammar numbered.2 (codePart numbered.1)).toList := by
  rw [findingsOf_lineWise (by decide), checkLines, findingsOf, List.filter_flatMap]
  apply List.flatMap_congr
  intro numbered _
  exact findingsOf_usage_checkLine grammar _ numbered.2 numbered.1

theorem checkUsage_eq_none_iff {table : RuleTable} {policy : OperandPolicy} {line : Nat}
    {code : List Char} :
    checkUsage (.ofTable table policy) line code = none ↔ ¬ Misused table policy code := by
  have accepted {instruction : Instruction} {usage : Usage} (place : InstructionAt code instruction)
      (found : (Grammar.ofTable table policy).lookup instruction.name = some usage) :
      usage.mismatches? policy (literals code) instruction = none ↔
        ∃ rule, .ok rule ∈ usage.rules ∧ rule.Accepts policy code instruction := by
    rw [mismatches?_eq_none_iff]
    apply exists_congr
    intro rule
    apply and_congr_right
    intro member
    exact mismatch?_eq_none_iff place (Grammar.upper_head_of_lookup found member)
  simp only [checkUsage, Option.bind_eq_none_iff, Option.map_eq_none_iff, instruction_of?_iff]
  constructor
  · rintro none ⟨instruction, usage, place, found, refused⟩
    exact refused ((accepted place found).1 (none instruction place usage found))
  · intro proper instruction place usage found
    apply (accepted place found).2
    apply Classical.byContradiction
    intro refused
    exact proper ⟨instruction, usage, place, found, refused⟩

/-- The usage check gives one finding where no compiled rule accepts the instruction of the line,
and otherwise nothing. -/
theorem checkUsage_reports_misused (table : RuleTable) (policy : OperandPolicy) (line : Nat)
    (code : List Char) :
    (Misused table policy code →
      ∃ finding, checkUsage (.ofTable table policy) line code = some finding ∧
        finding.id = Code.invalidUsage.id) ∧
    (¬ Misused table policy code → checkUsage (.ofTable table policy) line code = none) := by
  refine ⟨fun misused => ?_, checkUsage_eq_none_iff.2⟩
  cases found : checkUsage (.ofTable table policy) line code with
  | none => exact absurd misused (checkUsage_eq_none_iff.1 found)
  | some finding => exact ⟨finding, rfl, (isOf_checkUsage found).id_eq⟩

end AsmLint
