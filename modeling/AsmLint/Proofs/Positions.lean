import AsmLint.Dialect
import AsmLint.Proofs.Duplicates
import AsmLint.Proofs.LineIndex
import AsmLint.Proofs.References
import AsmLint.Proofs.Statement

/-! Where findings stand. A finding about a line marks at least one character, and only characters
of the code of that line; the range of the text that is shown for it holds the same characters. The
balance of blocks belongs to no line, and its findings are shown at the start of the text. -/

namespace AsmLint

inductive FoundBy (grammar : Grammar) (lines : List (List Char)) (issue : Diagnostic) : Prop where
  | usage {line raw} : lines[line]? = some raw →
      checkUsage grammar line (codePart raw) = some issue → FoundBy grammar lines issue
  | reference {line raw} : lines[line]? = some raw →
      issue ∈ checkReferences grammar (.build grammar lines) line (codePart raw) →
      FoundBy grammar lines issue
  | duplicate : issue ∈ checkDuplicates (.build grammar lines) → FoundBy grammar lines issue
  | balance : issue ∈ checkBalance (SymbolTable.build grammar lines).nesting →
      FoundBy grammar lines issue

theorem foundBy_of_mem {grammar : Grammar} {lines : List (List Char)} {issue : Diagnostic}
    (member : issue ∈ (validateLines grammar lines).issues) : FoundBy grammar lines issue := by
  simp only [validateLines, List.mem_append] at member
  rcases member with (lineWise | repeated) | balance
  · obtain ⟨⟨raw, line⟩, listed, member⟩ := List.mem_flatMap.1 lineWise
    have here := List.mem_zipIdx_iff_getElem?.1 listed
    rcases mem_checkLine member with found | found
    · exact .usage here found
    · exact .reference here found
  · exact .duplicate repeated
  · exact .balance balance

structure Span.InCode (span : Span) (code : List Char) : Prop where
  nonempty : span.start < span.stop
  bound : span.stop ≤ code.length

theorem isSpace_of_isBlank {c : Char} (blank : isBlank c = true) : isSpace c = true := by
  simp only [isBlank, Bool.or_eq_true, beq_iff_eq] at blank
  rcases blank with (((rfl | rfl) | rfl) | rfl) | rfl <;> decide

theorem length_takeWhile_isBlank_lt {text : List Char} (nonempty : trim text ≠ []) :
    (text.takeWhile isBlank).length < text.length := by
  have run := longestRun_takeWhile isBlank text
  have length := congrArg List.length run.split
  rw [List.length_append] at length
  have rest : text.dropWhile isBlank ≠ [] := by
    intro empty
    apply nonempty
    rw [trim_eq_nil_iff, run.split, empty, List.append_nil]
    intro c member
    exact isSpace_of_isBlank (run.inside c member)
  have positive := List.length_pos_iff.2 rest
  omega

theorem InstructionAt.inCode {code : List Char} {instruction : Instruction}
    (place : InstructionAt code instruction) (line : Nat) :
    (usageSpan line code instruction).InCode code := by
  obtain ⟨before, split, column⟩ := place.split
  obtain ⟨_, _, _, _, _, mnemonic⟩ := place
  have positive := List.length_pos_iff.2 mnemonic.ne_nil
  have length := congrArg List.length split
  rw [List.length_append, List.length_append] at length
  unfold usageSpan
  split
  case isTrue bare =>
    refine ⟨?_, ?_⟩
    · simp only [Instruction.stop]
      omega
    · simp only [Instruction.stop]
      omega
  case isFalse operands =>
    have blanks := @length_takeWhile_isBlank_lt instruction.rest
      (by simpa [Instruction.operandText] using operands)
    refine ⟨?_, Nat.le_refl _⟩
    simp only [Instruction.operandColumn, Instruction.stop]
    omega

theorem IsName.inCode {code : List Char} {token : Token} (name : IsName code token) (line : Nat) :
    (⟨line, token.start, token.stop⟩ : Span).InCode code := by
  obtain ⟨before, after, rfl, start, between⟩ := name
  have positive := List.length_pos_iff.2 between.nonempty
  refine ⟨?_, ?_⟩
  · simp only [Token.stop]
    omega
  · simp only [Token.stop, List.length_append]
    omega

theorem Defines.inCode {kind : SymbolKind} {inBlock : Prop} {code : List Char} {token : Token}
    (defines : Defines kind inBlock code token) (line : Nat) :
    (⟨line, token.start, token.stop⟩ : Span).InCode code := by
  obtain ⟨rest, leads⟩ := defines.leadsWith
  obtain ⟨before, split, length, -⟩ := leads.plain
  refine ⟨leads.start_lt_stop, ?_⟩
  simp only [split, List.length_append]
  omega

def Diagnostic.Marks (issue : Diagnostic) (line : Nat) (code : List Char) : Prop :=
  ∃ span, issue.span = some span ∧ span.line = line ∧ span.InCode code

section Checks

variable {grammar : Grammar} {lines : List (List Char)} {issue : Diagnostic}

theorem span_checkUsage {line : Nat} {code : List Char}
    (found : checkUsage grammar line code = some issue) :
    ∃ instruction, InstructionAt code instruction ∧
      issue.span = some (usageSpan line code instruction) := by
  simp only [checkUsage, Option.bind_eq_some_iff, Option.map_eq_some_iff] at found
  obtain ⟨instruction, first, usage, -, mismatches, -, rfl⟩ := found
  exact ⟨instruction, instruction_of?_iff.1 first, rfl⟩

theorem marks_checkUsage {line : Nat} {code : List Char}
    (found : checkUsage grammar line code = some issue) : issue.Marks line code := by
  obtain ⟨instruction, place, span⟩ := span_checkUsage found
  refine ⟨usageSpan line code instruction, span, ?_, place.inCode line⟩
  unfold usageSpan
  split <;> rfl

theorem marks_checkReferences {symbols : SymbolTable} {line : Nat} {code : List Char}
    (member : issue ∈ checkReferences grammar symbols line code) : issue.Marks line code := by
  obtain ⟨token, undefined, rfl⟩ := List.mem_map.1 member
  have name := mem_names_iff.1 (List.mem_filter.1 undefined).1
  exact ⟨⟨line, token.start, token.stop⟩, rfl, rfl, name.inCode line⟩

theorem marks_checkDuplicates (member : issue ∈ checkDuplicates (.build grammar lines)) :
    ∃ line raw, lines[line]? = some raw ∧ issue.Marks line (codePart raw) := by
  rw [checkDuplicates_eq] at member
  obtain ⟨definition, isRepeated, rfl⟩ := List.mem_map.1 member
  have reports := reportsRepeat_duplicateFinding (List.mem_filter.1 isRepeated).1
  obtain ⟨raw, here, defines⟩ := reports.defined
  exact ⟨definition.line, raw, here, _, reports.span, rfl, defines.inCode definition.line⟩

theorem span_checkBalance {nesting : Nesting} (member : issue ∈ checkBalance nesting) :
    issue.span = some documentStart := by
  rcases List.mem_append.1 member with braces | macros
  · rw [checkBraces] at braces
    split at braces
    · simp at braces
    · rw [List.mem_singleton.1 braces]
      rfl
  · rw [checkMacros] at macros
    split at macros
    · simp at macros
    · rw [List.mem_singleton.1 macros]
      rfl

end Checks

/-- The span marks characters of the code of a line of the text, and the range that is shown for it
holds the same characters, none left out. -/
structure ShownInCode (text : List Char) (span : Span) (line : List Char) : Prop where
  isLine : (splitLines text)[span.line]? = some line
  nonempty : span.start < span.stop
  inCode : span.stop ≤ (codePart line).length
  sameLength : (characterRange (.ofText text) span).length = span.length
  sameText : (characterRange (.ofText text) span).slice text =
    (⟨span.start, span.stop⟩ : Extent).slice line

theorem Diagnostic.Marks.shown {text line : List Char} {issue : Diagnostic} {number : Nat}
    (marks : issue.Marks number (codePart line)) (here : (splitLines text)[number]? = some line) :
    ∃ span, issue.span = some span ∧ ShownInCode text span line := by
  obtain ⟨span, marked, rfl, inCode⟩ := marks
  have shorter : (codePart line).length ≤ line.length := (List.takeWhile_sublist _).length_le
  have range := characterRange_of_line here (Nat.le_of_lt inCode.nonempty)
    (inCode.bound.trans shorter)
  exact ⟨span, marked, here, inCode.nonempty, inCode.bound, range.1, range.2⟩

def balanceCodes : List Code := [.unbalancedBlock, .unterminatedMacro]

theorem Diagnostic.IsOf.id_mem_iff {code : Code} {issue : Diagnostic} (isOf : IsOf code issue)
    (codes : List Code) : issue.id ∈ codes.map Code.id ↔ code ∈ codes := by
  simp [isOf.id_eq, Code.id_inj]

theorem marks_or_documentStart {grammar : Grammar} {lines : List (List Char)} {issue : Diagnostic}
    (member : issue ∈ (validateLines grammar lines).issues) :
    (issue.id ∉ balanceCodes.map Code.id ∧
        ∃ line raw, lines[line]? = some raw ∧ issue.Marks line (codePart raw)) ∨
      (issue.id ∈ balanceCodes.map Code.id ∧ issue.span = some documentStart) := by
  cases foundBy_of_mem member with
  | @usage line raw here found =>
    refine .inl ⟨?_, line, raw, here, marks_checkUsage found⟩
    rw [(isOf_checkUsage found).id_mem_iff]
    decide
  | @reference line raw here found =>
    refine .inl ⟨?_, line, raw, here, marks_checkReferences found⟩
    rw [(isOf_checkReferences found).id_mem_iff]
    decide
  | duplicate found =>
    refine .inl ⟨?_, marks_checkDuplicates found⟩
    rw [(isOf_checkDuplicates found).id_mem_iff]
    decide
  | balance found =>
    obtain ⟨code, listed, isOf⟩ := isOf_checkBalance found
    exact .inr ⟨(isOf.id_mem_iff balanceCodes).2 listed, span_checkBalance found⟩

/-- A finding about a line is shown at the characters of the code of that line that it marks,
whatever the line ends of the text are. A finding about blocks is shown at the first character that
stands before any line feed, if there is one. -/
theorem findings_shown_in_place (grammar : Grammar) (text : String) (issue : Diagnostic)
    (member : issue ∈ (validate grammar text).issues) :
    ∃ span, issue.span = some span ∧
      (issue.id ∉ balanceCodes.map Code.id → ∃ line, ShownInCode text.toList span line) ∧
      (issue.id ∈ balanceCodes.map Code.id →
        characterRange (.ofText text.toList) span =
          ⟨0, min 1 (text.toList.takeWhile (· != '\n')).length⟩) := by
  rcases marks_or_documentStart member with
    ⟨aboutLine, number, line, here, marks⟩ | ⟨aboutBlocks, start⟩
  · obtain ⟨span, marked, shown⟩ := marks.shown here
    exact ⟨span, marked, fun _ => ⟨line, shown⟩, fun aboutBlocks => absurd aboutBlocks aboutLine⟩
  · exact ⟨documentStart, start, fun aboutLine => absurd aboutBlocks aboutLine,
      fun _ => characterRange_documentStart text.toList⟩

theorem repeated_label_shown_in_place :
    ∃ issue ∈ (validate z80Grammar "a: ; \u00e9\r\n\ta :\r\n").issues,
      issue.span = some ⟨1, 1, 2⟩ ∧
        ∃ line, ShownInCode "a: ; \u00e9\r\n\ta :\r\n".toList ⟨1, 1, 2⟩ line := by
  let lines := ["a: ; \u00e9".toList, "\ta :".toList, []]
  let definition : Definition := ⟨.label, 1, ⟨['a'], 1⟩⟩
  have split : splitLines "a: ; \u00e9\r\n\ta :\r\n".toList = lines := by decide
  have isRepeated : definition ∈ repeated lines := by decide
  have found : duplicateFinding (recordFor lines definition) definition.site ∈
      (validate z80Grammar "a: ; \u00e9\r\n\ta :\r\n").issues := by
    rw [validate, split, validateLines, checkDuplicates,
      (SymbolTable.describes_build z80Grammar lines).redefinitions_eq, List.map_map]
    exact List.mem_append_left _ (List.mem_append_right _ (List.mem_map.2 ⟨_, isRepeated, rfl⟩))
  have place := (reportsRepeat_duplicateFinding (List.mem_filter.1 isRepeated).1).span
  obtain ⟨span, marked, shown, -⟩ := findings_shown_in_place _ _ _ found
  obtain rfl := Option.some.inj (place.symm.trans marked)
  exact ⟨_, found, place, shown (by decide)⟩

end AsmLint
