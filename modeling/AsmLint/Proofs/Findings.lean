import AsmLint.Check.Document

/-! The findings of a report, told apart by their codes. Every check makes findings of one code, so
the findings of a code are what its check gives, and no other check adds to them. -/

namespace AsmLint

theorem Code.id_inj {a b : Code} : a.id = b.id ↔ a = b := by
  constructor
  · intro same
    have found := ofId?_id a
    rw [same, ofId?_id b] at found
    exact (Option.some.inj found).symm
  · rintro rfl
    rfl

theorem Code.severity_eq_error (code : Code) : code.severity = .error := by
  cases code <;> rfl

namespace Diagnostic

def value? (diagnostic : Diagnostic) (key : String) : Option String :=
  diagnostic.context.bind fun context => context.get? key

theorem value?_ofCode (code : Code) (wording : Wording) (span : Span)
    (context : List (String × String)) (key : String) :
    (ofCode code wording span context).value? key = context.reverse.lookup key :=
  Dict.get?_ofList context key

def IsOf (code : Code) (diagnostic : Diagnostic) : Prop :=
  ∃ wording span context, diagnostic = ofCode code wording span context

theorem isOf_ofCode (code : Code) (wording : Wording) (span : Span)
    (context : List (String × String)) : IsOf code (ofCode code wording span context) :=
  ⟨wording, span, context, rfl⟩

theorem IsOf.id_eq {code : Code} {diagnostic : Diagnostic} (isOf : IsOf code diagnostic) :
    diagnostic.id = code.id := by
  obtain ⟨_, _, _, rfl⟩ := isOf
  rfl

theorem IsOf.fields {code : Code} {diagnostic : Diagnostic} (isOf : IsOf code diagnostic) :
    (∃ span, diagnostic.span = some span) ∧ diagnostic.severity = .error ∧
      diagnostic.source = toolName := by
  obtain ⟨wording, span, context, rfl⟩ := isOf
  exact ⟨⟨span, rfl⟩, Code.severity_eq_error code, rfl⟩

theorem IsOf.isError {code : Code} {diagnostic : Diagnostic} (isOf : IsOf code diagnostic) :
    diagnostic.isError = true := by
  rw [Diagnostic.isError, isOf.fields.2.1]
  rfl

end Diagnostic

def findingsOf (code : Code) (issues : List Diagnostic) : List Diagnostic :=
  issues.filter fun issue => issue.id == code.id

theorem findingsOf_append (code : Code) (issues more : List Diagnostic) :
    findingsOf code (issues ++ more) = findingsOf code issues ++ findingsOf code more :=
  List.filter_append ..

theorem findingsOf_eq_self {code : Code} {issues : List Diagnostic}
    (all : ∀ issue ∈ issues, Diagnostic.IsOf code issue) : findingsOf code issues = issues := by
  apply List.filter_eq_self.2
  intro issue member
  simp [(all issue member).id_eq]

theorem findingsOf_eq_nil {code : Code} {codes : List Code} {issues : List Diagnostic}
    (missing : code ∉ codes)
    (all : ∀ issue ∈ issues, ∃ other ∈ codes, Diagnostic.IsOf other issue) :
    findingsOf code issues = [] := by
  apply List.filter_eq_nil_iff.2
  intro issue member same
  obtain ⟨other, listed, isOf⟩ := all issue member
  rw [isOf.id_eq, beq_iff_eq, Code.id_inj] at same
  exact missing (same ▸ listed)

def symbolFindings (issues : List Diagnostic) : List Diagnostic :=
  issues.filter fun issue => issue.id != Code.invalidUsage.id

theorem symbolFindings_append (issues more : List Diagnostic) :
    symbolFindings (issues ++ more) = symbolFindings issues ++ symbolFindings more :=
  List.filter_append ..

theorem symbolFindings_eq_self {codes : List Code} {issues : List Diagnostic}
    (missing : Code.invalidUsage ∉ codes)
    (all : ∀ issue ∈ issues, ∃ code ∈ codes, Diagnostic.IsOf code issue) :
    symbolFindings issues = issues := by
  apply List.filter_eq_self.2
  intro issue member
  obtain ⟨code, listed, isOf⟩ := all issue member
  rw [isOf.id_eq, bne_iff_ne, Ne, Code.id_inj]
  intro same
  exact missing (same ▸ listed)

theorem findingsOf_symbolFindings {code : Code} (other : code ≠ .invalidUsage)
    (issues : List Diagnostic) :
    findingsOf code (symbolFindings issues) = findingsOf code issues := by
  unfold findingsOf symbolFindings
  rw [List.filter_filter]
  apply List.filter_congr
  intro issue _
  by_cases same : issue.id = code.id
  · simp [same, Code.id_inj, other]
  · simp [same]

section Checks

variable {issue : Diagnostic}

theorem isOf_checkUsage {grammar : Grammar} {line : Nat} {code : List Char}
    (found : checkUsage grammar line code = some issue) : Diagnostic.IsOf .invalidUsage issue := by
  simp only [checkUsage, Option.bind_eq_some_iff, Option.map_eq_some_iff] at found
  obtain ⟨instruction, -, usage, -, mismatches, -, rfl⟩ := found
  exact Diagnostic.isOf_ofCode ..

theorem isOf_checkReferences {grammar : Grammar} {symbols : SymbolTable} {line : Nat}
    {code : List Char} (member : issue ∈ checkReferences grammar symbols line code) :
    Diagnostic.IsOf .undefinedSymbol issue := by
  obtain ⟨token, -, rfl⟩ := List.mem_map.1 member
  exact Diagnostic.isOf_ofCode ..

theorem mem_checkLine {grammar : Grammar} {symbols : SymbolTable} {line : Nat} {raw : List Char}
    (member : issue ∈ checkLine grammar symbols line raw) :
    checkUsage grammar line (codePart raw) = some issue ∨
      issue ∈ checkReferences grammar symbols line (codePart raw) := by
  unfold checkLine at member
  dsimp only at member
  split at member
  · simp at member
  · simpa using member

theorem isOf_checkLines {grammar : Grammar} {symbols : SymbolTable} {lines : List (List Char)}
    (member : issue ∈ checkLines grammar symbols lines) :
    ∃ code ∈ [Code.invalidUsage, Code.undefinedSymbol], Diagnostic.IsOf code issue := by
  obtain ⟨⟨raw, line⟩, -, member⟩ := List.mem_flatMap.1 member
  rcases mem_checkLine member with usage | reference
  · exact ⟨_, by simp, isOf_checkUsage usage⟩
  · exact ⟨_, by simp, isOf_checkReferences reference⟩

theorem isOf_checkDuplicates {symbols : SymbolTable} (member : issue ∈ checkDuplicates symbols) :
    Diagnostic.IsOf .duplicateDefinition issue := by
  obtain ⟨found, -, rfl⟩ := List.mem_map.1 member
  exact Diagnostic.isOf_ofCode ..

theorem isOf_checkBraces {nesting : Nesting} (member : issue ∈ checkBraces nesting) :
    Diagnostic.IsOf .unbalancedBlock issue := by
  rw [checkBraces] at member
  split at member
  · simp at member
  · rw [List.mem_singleton.1 member]
    exact Diagnostic.isOf_ofCode ..

theorem isOf_checkMacros {nesting : Nesting} (member : issue ∈ checkMacros nesting) :
    Diagnostic.IsOf .unterminatedMacro issue := by
  rw [checkMacros] at member
  split at member
  · simp at member
  · rw [List.mem_singleton.1 member]
    exact Diagnostic.isOf_ofCode ..

theorem isOf_checkBalance {nesting : Nesting} (member : issue ∈ checkBalance nesting) :
    ∃ code ∈ [Code.unbalancedBlock, Code.unterminatedMacro], Diagnostic.IsOf code issue := by
  rcases List.mem_append.1 member with braces | macros
  · exact ⟨_, by simp, isOf_checkBraces braces⟩
  · exact ⟨_, by simp, isOf_checkMacros macros⟩

end Checks

theorem findingsOf_duplicateDefinition (grammar : Grammar) (lines : List (List Char)) :
    findingsOf .duplicateDefinition (validateLines grammar lines).issues =
      checkDuplicates (.build grammar lines) := by
  rw [validateLines, findingsOf_append, findingsOf_append,
    findingsOf_eq_nil (by decide) fun _ => isOf_checkLines,
    findingsOf_eq_self fun _ => isOf_checkDuplicates,
    findingsOf_eq_nil (by decide) fun _ => isOf_checkBalance, List.nil_append, List.append_nil]

theorem findingsOf_unbalancedBlock_checkBalance (nesting : Nesting) :
    findingsOf .unbalancedBlock (checkBalance nesting) = checkBraces nesting := by
  have macros : findingsOf .unbalancedBlock (checkMacros nesting) = [] := by
    apply @findingsOf_eq_nil _ [.unterminatedMacro] _ (by decide)
    intro issue member
    exact ⟨_, by simp, isOf_checkMacros member⟩
  rw [checkBalance, findingsOf_append, findingsOf_eq_self fun _ => isOf_checkBraces, macros,
    List.append_nil]

theorem findingsOf_unterminatedMacro_checkBalance (nesting : Nesting) :
    findingsOf .unterminatedMacro (checkBalance nesting) = checkMacros nesting := by
  have braces : findingsOf .unterminatedMacro (checkBraces nesting) = [] := by
    apply @findingsOf_eq_nil _ [.unbalancedBlock] _ (by decide)
    intro issue member
    exact ⟨_, by simp, isOf_checkBraces member⟩
  rw [checkBalance, findingsOf_append, findingsOf_eq_self fun _ => isOf_checkMacros, braces,
    List.nil_append]

theorem findingsOf_blockWise {code : Code}
    (blockWise : code ∈ [Code.unbalancedBlock, .unterminatedMacro]) (grammar : Grammar)
    (lines : List (List Char)) :
    findingsOf code (validateLines grammar lines).issues =
      findingsOf code (checkBalance (SymbolTable.build grammar lines).nesting) := by
  have notLineWise : code ∉ [Code.invalidUsage, Code.undefinedSymbol] := by
    revert blockWise
    cases code <;> decide
  have notRepeated : code ∉ [Code.duplicateDefinition] := by
    revert blockWise
    cases code <;> decide
  have repeats : findingsOf code (checkDuplicates (.build grammar lines)) = [] := by
    apply findingsOf_eq_nil notRepeated
    intro issue member
    exact ⟨_, by simp, isOf_checkDuplicates member⟩
  rw [validateLines, findingsOf_append, findingsOf_append,
    findingsOf_eq_nil notLineWise fun _ => isOf_checkLines, repeats, List.nil_append,
    List.nil_append]

theorem findingsOf_unbalancedBlock (grammar : Grammar) (lines : List (List Char)) :
    findingsOf .unbalancedBlock (validateLines grammar lines).issues =
      checkBraces (SymbolTable.build grammar lines).nesting := by
  rw [findingsOf_blockWise (by decide), findingsOf_unbalancedBlock_checkBalance]

theorem findingsOf_lineWise {code : Code} (lineWise : code ∈ [Code.invalidUsage, .undefinedSymbol])
    (grammar : Grammar) (lines : List (List Char)) :
    findingsOf code (validateLines grammar lines).issues =
      findingsOf code (checkLines grammar (.build grammar lines) lines) := by
  have notRepeated : code ∉ [Code.duplicateDefinition] := by
    revert lineWise
    cases code <;> decide
  have notBalance : code ∉ [Code.unbalancedBlock, Code.unterminatedMacro] := by
    revert lineWise
    cases code <;> decide
  have distinct : findingsOf code (checkDuplicates (.build grammar lines)) = [] := by
    apply findingsOf_eq_nil notRepeated
    intro issue member
    exact ⟨_, by simp, isOf_checkDuplicates member⟩
  rw [validateLines, findingsOf_append, findingsOf_append, distinct,
    findingsOf_eq_nil notBalance fun _ => isOf_checkBalance, List.append_nil, List.append_nil]

theorem exists_isOf {grammar : Grammar} {lines : List (List Char)} {issue : Diagnostic}
    (member : issue ∈ (validateLines grammar lines).issues) :
    ∃ code, Diagnostic.IsOf code issue := by
  simp only [validateLines, List.mem_append] at member
  rcases member with (lineWise | repeated) | balance
  · obtain ⟨code, -, isOf⟩ := isOf_checkLines lineWise
    exact ⟨code, isOf⟩
  · exact ⟨_, isOf_checkDuplicates repeated⟩
  · obtain ⟨code, -, isOf⟩ := isOf_checkBalance balance
    exact ⟨code, isOf⟩

/-- Every finding is an error, so a report is clean only if it is empty. -/
theorem ok_iff (grammar : Grammar) (lines : List (List Char)) :
    (validateLines grammar lines).ok = true ↔ (validateLines grammar lines).issues = [] := by
  have errors : ∀ issue ∈ (validateLines grammar lines).issues, issue.isError = true := by
    intro issue member
    obtain ⟨code, isOf⟩ := exists_isOf member
    exact isOf.isError
  rw [Report.ok, Bool.not_eq_true', List.any_eq_false]
  constructor
  · intro none
    apply List.eq_nil_iff_forall_not_mem.2
    intro issue member
    exact none issue member (errors issue member)
  · intro empty
    simp [empty]

end AsmLint
