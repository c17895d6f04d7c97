import AsmLint.Proofs.Positions

/-! The order of a report. Findings about single lines come first, line by line, and on each line
the finding about usage before the undefined names from left to right. Repeated definitions follow
in the order of their lines, and the balance of blocks comes last. -/

namespace AsmLint

def OnEarlierLine (a b : Diagnostic) : Prop :=
  ∃ first second, a.span = some first ∧ b.span = some second ∧ first.line < second.line

/-- Both findings stand on one line, and the second is about an undefined name. If the first is
about one too, it ends before the second starts. -/
def EarlierOnLine (a b : Diagnostic) : Prop :=
  ∃ first second, a.span = some first ∧ b.span = some second ∧ first.line = second.line ∧
    b.id = Code.undefinedSymbol.id ∧
    (a.id = Code.undefinedSymbol.id → first.start < second.start ∧ first.stop ≤ second.start)

structure InReportOrder (byLine repeats braces macros : List Diagnostic) : Prop where
  lineCodes : ∀ issue ∈ byLine,
    issue.id = Code.invalidUsage.id ∨ issue.id = Code.undefinedSymbol.id
  lineOrder : byLine.Pairwise fun a b => OnEarlierLine a b ∨ EarlierOnLine a b
  repeatCodes : ∀ issue ∈ repeats, issue.id = Code.duplicateDefinition.id
  repeatOrder : repeats.Pairwise OnEarlierLine
  braceCodes : ∀ issue ∈ braces, issue.id = Code.unbalancedBlock.id
  bracesOnce : braces.length ≤ 1
  macroCodes : ∀ issue ∈ macros, issue.id = Code.unterminatedMacro.id
  macrosOnce : macros.length ≤ 1

section Lines

variable (grammar : Grammar) (symbols : SymbolTable)

theorem pairwise_checkReferences (line : Nat) (code : List Char) :
    (checkReferences grammar symbols line code).Pairwise EarlierOnLine := by
  unfold checkReferences undefinedNames
  apply List.pairwise_map.2
  apply ((pairwise_names code).filter _).imp_of_mem
  intro a b first _ apart
  have before := start_lt_start (mem_names_iff.1 (List.mem_filter.1 first).1) apart
  exact ⟨_, _, rfl, rfl, rfl, rfl, fun _ => ⟨before, apart⟩⟩

theorem usage_before_reference {line : Nat} {code : List Char} {usage reference : Diagnostic}
    (found : checkUsage grammar line code = some usage)
    (member : reference ∈ checkReferences grammar symbols line code) :
    EarlierOnLine usage reference := by
  obtain ⟨first, marked, sameLine, -⟩ := marks_checkUsage found
  obtain ⟨second, marked', sameLine', -⟩ := marks_checkReferences member
  refine ⟨first, second, marked, marked', sameLine.trans sameLine'.symm,
    (isOf_checkReferences member).id_eq, fun isReference => ?_⟩
  rw [(isOf_checkUsage found).id_eq, Code.id_inj] at isReference
  contradiction

theorem pairwise_checkLine (line : Nat) (raw : List Char) :
    (checkLine grammar symbols line raw).Pairwise EarlierOnLine := by
  unfold checkLine
  dsimp only
  split
  case isTrue => exact .nil
  case isFalse =>
    refine List.pairwise_append.2 ⟨?_, pairwise_checkReferences .., ?_⟩
    · cases checkUsage grammar line (codePart raw) with
      | none => exact .nil
      | some usage => exact List.pairwise_singleton _ _
    · intro usage found reference member
      exact usage_before_reference grammar symbols (Option.mem_toList.1 found) member

theorem marks_checkLine {line : Nat} {raw : List Char} {issue : Diagnostic}
    (member : issue ∈ checkLine grammar symbols line raw) : issue.Marks line (codePart raw) := by
  rcases mem_checkLine member with usage | reference
  · exact marks_checkUsage usage
  · exact marks_checkReferences reference

theorem pairwise_checkLines (lines : List (List Char)) :
    (checkLines grammar symbols lines).Pairwise fun a b =>
      OnEarlierLine a b ∨ EarlierOnLine a b := by
  unfold checkLines
  refine List.pairwise_flatMap.2 ⟨fun numbered _ => ?_, ?_⟩
  · exact (pairwise_checkLine grammar symbols numbered.2 numbered.1).imp .inr
  · apply (pairwise_zipIdx lines).imp
    intro numbered later less a inFirst b inSecond
    obtain ⟨first, marked, sameLine, -⟩ := marks_checkLine grammar symbols inFirst
    obtain ⟨second, marked', sameLine', -⟩ := marks_checkLine grammar symbols inSecond
    exact .inl ⟨first, second, marked, marked', by omega⟩

end Lines

theorem pairwise_checkDuplicates (grammar : Grammar) (lines : List (List Char)) :
    (checkDuplicates (.build grammar lines)).Pairwise OnEarlierLine := by
  rw [checkDuplicates_eq]
  apply List.pairwise_map.2
  apply (pairwise_repeated lines).imp
  intro a b less
  exact ⟨_, _, rfl, rfl, less⟩

theorem length_checkBraces_le (nesting : Nesting) : (checkBraces nesting).length ≤ 1 := by
  unfold checkBraces
  split <;> simp

theorem length_checkMacros_le (nesting : Nesting) : (checkMacros nesting).length ≤ 1 := by
  unfold checkMacros
  split <;> simp

/-- A report consists of four parts in a fixed order, and each of its findings is an error of this
tool with a place, so a document is accepted exactly if its report is empty. -/
theorem issues_in_report_order (grammar : Grammar) (lines : List (List Char)) :
    (∃ byLine repeats braces macros,
      (validateLines grammar lines).issues = byLine ++ repeats ++ (braces ++ macros) ∧
        InReportOrder byLine repeats braces macros) ∧
    (∀ issue ∈ (validateLines grammar lines).issues,
      (∃ span, issue.span = some span) ∧ issue.severity = .error ∧ issue.source = "z80lint") ∧
    ((validateLines grammar lines).ok = true ↔ (validateLines grammar lines).issues = []) := by
  refine ⟨⟨_, _, _, _, rfl, ?_⟩, ?_, ok_iff grammar lines⟩
  · exact {
      lineCodes := by
        intro issue member
        obtain ⟨code, listed, isOf⟩ := isOf_checkLines member
        rw [isOf.id_eq, Code.id_inj, Code.id_inj]
        simpa using listed
      lineOrder := pairwise_checkLines ..
      repeatCodes := fun issue member => (isOf_checkDuplicates member).id_eq
      repeatOrder := pairwise_checkDuplicates grammar lines
      braceCodes := fun issue member => (isOf_checkBraces member).id_eq
      bracesOnce := length_checkBraces_le _
      macroCodes := fun issue member => (isOf_checkMacros member).id_eq
      macrosOnce := length_checkMacros_le _ }
  · intro issue member
    obtain ⟨code, isOf⟩ := exists_isOf member
    exact isOf.fields

end AsmLint
