import AsmLint.Proofs.Positions
import AsmLint.Proofs.Usage

/-! The part of a line that a finding about usage marks. The operand text is cut out with white
space in the wide sense, which holds the vertical tab and the no-break space, while its column is
found by passing over blanks alone. So a finding marks the operands from their first character on
exactly if only blanks stand between them and the mnemonic; otherwise it starts at the first
character of that gap that is no blank. -/

namespace AsmLint

/-- The code of an instruction in its parts. `operand` is what follows the mnemonic, without the
white space `gap` in front of it and `tail` behind it. -/
structure OperandAt (code before mnemonic gap operand tail : List Char) : Prop where
  place : InstructionAt code ⟨before.length, mnemonic, gap ++ (operand ++ tail)⟩
  split : code = before ++ mnemonic ++ gap ++ operand ++ tail
  leading : AllIn isSpace gap
  trailing : AllIn isSpace tail
  starts : StartsOutside isSpace operand
  ends : EndsOutside isSpace operand

theorem InstructionAt.exists_operandAt {code : List Char} {instruction : Instruction}
    (place : InstructionAt code instruction) :
    ∃ before mnemonic gap operand tail, OperandAt code before mnemonic gap operand tail := by
  obtain ⟨before, split, column⟩ := place.split
  obtain ⟨start, mnemonic, rest⟩ := instruction
  obtain ⟨gap, tail, parts, leading, trailing, starts, ends⟩ := trim_eq_iff.1 (Eq.refl (trim rest))
  refine ⟨before, mnemonic, gap, trim rest, tail, ?_, ?_, leading, trailing, starts, ends⟩
  · rw [column, ← parts]
    exact place
  · rw [List.append_assoc, List.append_assoc, ← parts]
    exact split

namespace OperandAt

variable {code before mnemonic gap operand tail : List Char}

theorem operandText_eq (parts : OperandAt code before mnemonic gap operand tail) :
    Instruction.operandText ⟨before.length, mnemonic, gap ++ (operand ++ tail)⟩ = operand :=
  trim_eq_iff.2 ⟨gap, tail, rfl, parts.leading, parts.trailing, parts.starts, parts.ends⟩

theorem longestRun_isBlank (parts : OperandAt code before mnemonic gap operand tail)
    (given : operand ≠ []) {blanks others : List Char}
    (run : LongestRun isBlank gap blanks others) :
    LongestRun isBlank (gap ++ (operand ++ tail)) blanks (others ++ (operand ++ tail)) := by
  obtain ⟨c, operand, rfl⟩ := List.exists_cons_of_ne_nil given
  have noBlank : StartsOutside isBlank (c :: operand) :=
    parts.starts.mono fun _ => isSpace_of_isBlank
  exact run.extend (startsOutside_cons.1 noBlank) (operand ++ tail)

theorem usageSpan_bare (parts : OperandAt code before mnemonic gap [] tail) (line : Nat) :
    usageSpan line code ⟨before.length, mnemonic, gap ++ ([] ++ tail)⟩ =
      ⟨line, before.length, (before ++ mnemonic).length⟩ := by
  rw [usageSpan, parts.operandText_eq, List.length_append]
  rfl

theorem usageSpan_given (parts : OperandAt code before mnemonic gap operand tail)
    (given : operand ≠ []) {blanks others : List Char}
    (run : LongestRun isBlank gap blanks others) (line : Nat) :
    usageSpan line code ⟨before.length, mnemonic, gap ++ (operand ++ tail)⟩ =
      ⟨line, (before ++ mnemonic ++ blanks).length, code.length⟩ := by
  have text : operand.isEmpty = false := by simpa using given
  rw [usageSpan, parts.operandText_eq, text, Instruction.operandColumn, Instruction.stop,
    (parts.longestRun_isBlank given run).takeWhile_eq, List.length_append, List.length_append]
  rfl

end OperandAt

/-- Every finding about usage marks one line. Without operands it marks the mnemonic. With operands
it runs to the end of the code, from the first character after the mnemonic that is no blank, and
that is where the operands start exactly if the gap in front of them holds blanks alone. -/
theorem usage_finding_marks_operands (grammar : Grammar) (lines : List (List Char))
    (finding : Diagnostic)
    (reported : finding ∈ findingsOf .invalidUsage (validateLines grammar lines).issues) :
    ∃ line raw, lines[line]? = some raw ∧
      (∃ before mnemonic gap operand tail,
        OperandAt (codePart raw) before mnemonic gap operand tail) ∧
      ∀ before mnemonic gap operand tail,
        OperandAt (codePart raw) before mnemonic gap operand tail →
        (operand = [] → finding.span = some ⟨line, before.length, (before ++ mnemonic).length⟩) ∧
        (operand ≠ [] → ∀ blanks others, LongestRun isBlank gap blanks others →
          finding.span =
            some ⟨line, (before ++ mnemonic ++ blanks).length, (codePart raw).length⟩ ∧
          (finding.span = some ⟨line, (before ++ mnemonic ++ gap).length, (codePart raw).length⟩ ↔
            AllIn isBlank gap)) := by
  rw [findingsOf_invalidUsage] at reported
  obtain ⟨⟨raw, line⟩, listed, member⟩ := List.mem_flatMap.1 reported
  obtain ⟨instruction, place, span⟩ := span_checkUsage (Option.mem_toList.1 member)
  refine ⟨line, raw, List.mem_zipIdx_iff_getElem?.1 listed, place.exists_operandAt, ?_⟩
  intro before mnemonic gap operand tail parts
  rw [span, place.eq parts.place]
  refine ⟨?_, ?_⟩
  · rintro rfl
    rw [parts.usageSpan_bare line]
  · intro given blanks others run
    rw [parts.usageSpan_given given run line]
    refine ⟨rfl, ?_⟩
    rw [← run.length_eq_iff]
    simp

theorem usage_finding_marks_operands_after_blanks :
    let table : RuleTable := ⟨"1.0.0", "t", Dict.empty, Dict.ofList [("NOP", ["NOP"])],
      Dict.empty, []⟩
    let raw := "x: NOP \t1, 2 ; none".toList
    ∃ finding ∈ findingsOf .invalidUsage (validateLines (.ofTable table ⟨true, true⟩) [raw]).issues,
      finding.span = some ⟨0, 8, 13⟩ := by
  intro table raw
  have reported : (findingsOf .invalidUsage
      (validateLines (.ofTable table ⟨true, true⟩) [raw]).issues).length = 1 := by decide +kernel
  obtain ⟨finding, only⟩ := List.length_eq_one_iff.1 reported
  have member : finding ∈ findingsOf .invalidUsage
      (validateLines (.ofTable table ⟨true, true⟩) [raw]).issues := by simp [only]
  obtain ⟨line, written, here, -, marks⟩ := usage_finding_marks_operands _ _ finding member
  have first : line = 0 ∧ raw = written := by
    simpa [List.getElem?_singleton] using here
  obtain ⟨rfl, rfl⟩ := first
  have place : InstructionAt (codePart raw) ⟨3, "NOP".toList, " \t1, 2 ".toList⟩ :=
    instruction_of?_iff.1 (by decide)
  have parts : OperandAt (codePart raw) "x: ".toList "NOP".toList " \t".toList "1, 2".toList
      " ".toList := ⟨place, by decide, by decide, by decide, by decide, by decide⟩
  have run : LongestRun isBlank " \t".toList " \t".toList [] := ⟨rfl, by decide, by decide⟩
  exact ⟨finding, member, ((marks _ _ _ _ _ parts).2 (by decide) _ _ run).1⟩

/-- A no-break space is white space but no blank, so the finding starts at it and not at the operand
behind it. -/
theorem usage_finding_starts_at_no_break_space :
    let table : RuleTable := ⟨"1.0.0", "t", Dict.empty, Dict.ofList [("NOP", ["NOP"])],
      Dict.empty, []⟩
    let raw := "NOP\u00a01".toList
    OperandAt (codePart raw) [] "NOP".toList "\u00a0".toList "1".toList [] ∧
      (findingsOf .invalidUsage (validateLines (.ofTable table ⟨true, true⟩) [raw]).issues).map
          Diagnostic.span = [some ⟨0, 3, 5⟩] ∧
      "NOP\u00a0".toList.length = 4 := by
  intro table raw
  have place : InstructionAt (codePart raw) ⟨0, "NOP".toList, "\u00a01".toList⟩ :=
    instruction_of?_iff.1 (by decide)
  refine ⟨⟨place, by decide, by decide, by decide, by decide, by decide⟩, ?_, by decide⟩
  decide +kernel

end AsmLint
