import AsmLint.Proofs.References

/-! What the analysis of symbols depends on. The findings of a report that are not about usage come
from the names of the lines and from the symbol table. They stay the same under another grammar that
knows the same words, and when a line is replaced by one that introduces and mentions the same
names. -/

namespace AsmLint

/-- The reports agree in the symbol table and in all findings that are not about usage. -/
structure SameSymbols (report other : Report) : Prop where
  symbols : report.symbols = other.symbols
  findings : symbolFindings report.issues = symbolFindings other.issues

theorem symbolFindings_validateLines (grammar : Grammar) (lines : List (List Char)) :
    symbolFindings (validateLines grammar lines).issues =
      (lines.zipIdx.flatMap fun numbered =>
          checkReferences grammar (.build grammar lines) numbered.2 (codePart numbered.1)) ++
        checkDuplicates (.build grammar lines) ++
        checkBalance (SymbolTable.build grammar lines).nesting := by
  have duplicates : symbolFindings (checkDuplicates (.build grammar lines)) =
      checkDuplicates (.build grammar lines) := by
    apply @symbolFindings_eq_self [.duplicateDefinition] _ (by decide)
    intro issue member
    exact ⟨_, by simp, isOf_checkDuplicates member⟩
  have balance : symbolFindings (checkBalance (SymbolTable.build grammar lines).nesting) =
      checkBalance (SymbolTable.build grammar lines).nesting :=
    symbolFindings_eq_self (by decide) fun _ => isOf_checkBalance
  have lineWise : symbolFindings (checkLines grammar (.build grammar lines) lines) =
      lines.zipIdx.flatMap fun numbered =>
        checkReferences grammar (.build grammar lines) numbered.2 (codePart numbered.1) := by
    rw [symbolFindings, checkLines, List.filter_flatMap]
    apply List.flatMap_congr
    intro numbered _
    exact symbolFindings_checkLine grammar _ numbered.2 numbered.1
  rw [validateLines, symbolFindings_append, symbolFindings_append, lineWise, duplicates, balance]

section Grammars

variable {grammar other : Grammar}

theorem build_eq_of_keywords
    (keywords : grammar.isDeclarationKeyword = other.isDeclarationKeyword)
    (lines : List (List Char)) :
    SymbolTable.build grammar lines = SymbolTable.build other lines := by
  unfold SymbolTable.build SymbolTable.observe
  rw [keywords]

theorem sameSymbols_of_words (keywords : grammar.isDeclarationKeyword = other.isDeclarationKeyword)
    (words : ∀ word, (grammar.isMnemonic word || grammar.isKeyword word) =
      (other.isMnemonic word || other.isKeyword word)) (lines : List (List Char)) :
    SameSymbols (validateLines grammar lines) (validateLines other lines) := by
  have table := build_eq_of_keywords keywords lines
  refine ⟨table, ?_⟩
  rw [symbolFindings_validateLines, symbolFindings_validateLines, table]
  simp only [checkReferences, undefinedNames, isResolved, words]

end Grammars

section Line

variable {grammar : Grammar} {raw other : List Char}

structure SameNames (grammar : Grammar) (raw other : List Char) : Prop where
  observed : ∀ table line, SymbolTable.observe grammar table line raw =
    SymbolTable.observe grammar table line other
  undefined : ∀ symbols, undefinedNames grammar symbols (codePart raw) =
    undefinedNames grammar symbols (codePart other)

theorem build_eq_of_observe
    (observed : ∀ table line, SymbolTable.observe grammar table line raw =
      SymbolTable.observe grammar table line other) (above below : List (List Char)) :
    SymbolTable.build grammar (above ++ raw :: below) =
      SymbolTable.build grammar (above ++ other :: below) := by
  simp only [SymbolTable.build, List.zipIdx_append, List.zipIdx_cons, List.foldl_append,
    List.foldl_cons, observed]

theorem sameSymbols_of_line (same : SameNames grammar raw other) (above below : List (List Char)) :
    SameSymbols (validateLines grammar (above ++ raw :: below))
      (validateLines grammar (above ++ other :: below)) := by
  have table := build_eq_of_observe same.observed above below
  refine ⟨table, ?_⟩
  rw [symbolFindings_validateLines, symbolFindings_validateLines, table]
  simp only [List.zipIdx_append, List.zipIdx_cons, List.flatMap_append, List.flatMap_cons,
    checkReferences, same.undefined]

end Line

end AsmLint
