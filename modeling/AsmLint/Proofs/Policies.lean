import AsmLint.Proofs.Positions
import AsmLint.Proofs.SymbolAnalysis
import AsmLint.Proofs.Usage

/-! Grammars of one table under different operand policies. The policy has no part in the words that
a grammar knows, so the analysis of symbols does not depend on it. Where two policies differ only in
how units with fixed parts are read, the rules correspond one to one, and a rule that matches part
by part accepts no more than its counterpart that takes any text. -/

namespace AsmLint

section Words

variable (table : RuleTable) (policy other : OperandPolicy)

theorem heads_compile (legend : Legend) (entry : String × List String) :
    (Usage.compile legend policy entry).heads = (Usage.compile legend other entry).heads := by
  unfold Usage.heads Usage.compile
  rw [List.filterMap_map, List.filterMap_map]
  congr 1
  funext text
  simp only [Function.comp_apply, Rule.compile]
  cases units text.toList <;> rfl

theorem mnemonics_ofTable :
    (Grammar.ofTable table policy).mnemonics = (Grammar.ofTable table other).mnemonics := by
  unfold Grammar.ofTable
  simp only [List.flatMap_map, heads_compile policy other]
  rfl

theorem sameSymbols_of_policies (lines : List (List Char)) :
    SameSymbols (validateLines (.ofTable table policy) lines)
      (validateLines (.ofTable table other) lines) := by
  apply sameSymbols_of_words
  · rw [Grammar.isDeclarationKeyword_ofTable, Grammar.isDeclarationKeyword_ofTable]
  · intro word
    unfold Grammar.isMnemonic
    rw [mnemonics_ofTable table policy other]
    rfl

end Words

structure Slot.Relaxes (strict loose : Slot) : Prop where
  freeForm : strict.freeForm = loose.freeForm
  accepts : ∀ operand, strict.accepts operand = true → loose.accepts operand = true

theorem Slot.Relaxes.refl (slot : Slot) : slot.Relaxes slot := ⟨rfl, fun _ accepted => accepted⟩

theorem relaxes_ofUnit (legend : Legend) (whole : Bool) (unit : List Char) :
    (Slot.ofUnit legend ⟨whole, true⟩ unit).Relaxes (Slot.ofUnit legend ⟨whole, false⟩ unit) := by
  unfold Slot.ofUnit
  cases optionBody? unit with
  | some body => exact .refl _
  | none =>
    cases KeyedUnit.of? unit with
    | none => exact .refl _
    | some keyed =>
      dsimp only
      split
      case isTrue => exact .refl _
      case isFalse => exact ⟨rfl, fun _ _ => rfl⟩

theorem accepts_of_relaxes {slots others : List Slot} {operands : List (List Char)}
    (relaxes : List.Forall₂ Slot.Relaxes slots others)
    (accepts : List.Forall₂ (fun slot operand => slot.accepts operand = true) slots operands) :
    List.Forall₂ (fun slot operand => slot.accepts operand = true) others operands := by
  induction relaxes generalizing operands with
  | nil => exact accepts
  | cons slot _ ih =>
    cases accepts with
    | cons accepted rest => exact .cons (slot.accepts _ accepted) (ih rest)

structure Rule.Relaxes (strict loose : Rule) : Prop where
  head : strict.head = loose.head
  slots : List.Forall₂ Slot.Relaxes strict.slots loose.slots

theorem exists_relaxes_of_compile {legend : Legend} {whole : Bool} {text : String} {strict : Rule}
    (compiled : Rule.compile legend ⟨whole, true⟩ text = .ok strict) :
    ∃ loose, Rule.compile legend ⟨whole, false⟩ text = .ok loose ∧ strict.Relaxes loose := by
  obtain ⟨head, rest, split, rfl⟩ := compile_eq_ok_iff.1 compiled
  refine ⟨_, compile_eq_ok_iff.2 ⟨head, rest, split, rfl⟩, rfl, ?_⟩
  rw [List.forall₂_map_left_iff, List.forall₂_map_right_iff, List.forall₂_same]
  intro unit _
  exact relaxes_ofUnit legend whole unit

namespace Rule.Relaxes

variable {strict loose : Rule} (relaxes : strict.Relaxes loose)
include relaxes

theorem slots_eq_nil_iff : strict.slots = [] ↔ loose.slots = [] := by
  rw [← List.length_eq_zero_iff, ← List.length_eq_zero_iff, relaxes.slots.length_eq]

theorem exists_freeForm_iff :
    (∃ slot ∈ strict.slots, slot.freeForm = true) ↔ ∃ slot ∈ loose.slots, slot.freeForm = true := by
  rw [← List.any_eq_true, ← List.any_eq_true]
  have pairs := relaxes.slots
  generalize strict.slots = slots at pairs
  generalize loose.slots = others at pairs
  induction pairs with
  | nil => rfl
  | cons slot _ ih => simp only [List.any_cons, slot.freeForm, Bool.or_eq_true, ih]

theorem operandList_eq (whole : Bool) (code : List Char) (instruction : Instruction) :
    operandList ⟨whole, true⟩ code instruction strict =
      operandList ⟨whole, false⟩ code instruction loose := by
  unfold operandList
  simp only [relaxes.exists_freeForm_iff]

theorem accepts {whole : Bool} {code : List Char} {instruction : Instruction}
    (accepts : strict.Accepts ⟨whole, true⟩ code instruction) :
    loose.Accepts ⟨whole, false⟩ code instruction where
  head := relaxes.head ▸ accepts.head
  bare empty := accepts.bare (relaxes.slots_eq_nil_iff.2 empty)
  operands nonempty := by
    have fitting := accepts.operands (mt relaxes.slots_eq_nil_iff.1 nonempty)
    rw [relaxes.operandList_eq] at fitting
    exact accepts_of_relaxes relaxes.slots fitting

end Rule.Relaxes

theorem misused_of_misused {table : RuleTable} {whole : Bool} {code : List Char}
    (misused : Misused table ⟨whole, false⟩ code) : Misused table ⟨whole, true⟩ code := by
  obtain ⟨instruction, usage, place, found, refused⟩ := misused
  rw [Grammar.lookup_ofTable, Option.map_eq_some_iff] at found
  obtain ⟨entry, found, rfl⟩ := found
  refine ⟨instruction, Usage.compile table.legend ⟨whole, true⟩ entry, place, ?_, ?_⟩
  · rw [Grammar.lookup_ofTable, found, Option.map_some]
  · intro accepted
    obtain ⟨strict, member, accepts⟩ := accepted
    obtain ⟨text, listed, compiled⟩ := List.mem_map.1 member
    obtain ⟨loose, compiled, relaxes⟩ := exists_relaxes_of_compile compiled
    exact refused ⟨loose, List.mem_map.2 ⟨text, listed, compiled⟩, relaxes.accepts accepts⟩

def misusedLines (issues : List Diagnostic) : List Nat :=
  (findingsOf .invalidUsage issues).filterMap fun issue => issue.span.map Span.line

theorem mem_misusedLines_iff {table : RuleTable} {policy : OperandPolicy}
    {lines : List (List Char)} {line : Nat} :
    line ∈ misusedLines (validateLines (.ofTable table policy) lines).issues ↔
      ∃ raw, lines[line]? = some raw ∧ Misused table policy (codePart raw) := by
  simp only [misusedLines, findingsOf_invalidUsage, List.mem_filterMap, List.mem_flatMap,
    Option.mem_toList, List.mem_zipIdx_iff_getElem?, Option.map_eq_some_iff]
  constructor
  · intro reported
    obtain ⟨issue, ⟨⟨raw, number⟩, here, found⟩, span, marked, rfl⟩ := reported
    obtain ⟨_, marked', sameLine, -⟩ := marks_checkUsage found
    obtain rfl := Option.some.inj (marked.symm.trans marked')
    refine ⟨raw, sameLine ▸ here, ?_⟩
    apply Classical.byContradiction
    intro proper
    rw [checkUsage_eq_none_iff.2 proper] at found
    contradiction
  · intro misused
    obtain ⟨raw, here, misused⟩ := misused
    cases found : checkUsage (.ofTable table policy) line (codePart raw) with
    | none => exact absurd misused (checkUsage_eq_none_iff.1 found)
    | some issue =>
      obtain ⟨span, marked, sameLine, -⟩ := marks_checkUsage found
      exact ⟨issue, ⟨(raw, line), here, found⟩, span, marked, sameLine⟩

/-- Operand policies and the reports they give for one table. Symbols and what is found about them
do not depend on the policy. Whatever a policy says about whole operands, a line that is refused
when units with fixed parts take any text is also refused when they are matched part by part. -/
theorem policies_report (table : RuleTable) (lines : List (List Char)) :
    (∀ policy other, SameSymbols (validateLines (.ofTable table policy) lines)
      (validateLines (.ofTable table other) lines)) ∧
    ∀ whole, misusedLines (validateLines (.ofTable table ⟨whole, false⟩) lines).issues ⊆
      misusedLines (validateLines (.ofTable table ⟨whole, true⟩) lines).issues := by
  refine ⟨fun policy other => sameSymbols_of_policies table policy other lines, ?_⟩
  intro whole line reported
  obtain ⟨raw, here, misused⟩ := mem_misusedLines_iff.1 reported
  exact mem_misusedLines_iff.2 ⟨raw, here, misused_of_misused misused⟩

end AsmLint
