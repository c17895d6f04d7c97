import AsmLint.Proofs.LaterLines
import Mathlib.Data.List.FinRange

/-! The order of lines. Where no line opens a block, what a line introduces and how it is used do
not depend on the lines before it. The lines can then be put in any order: findings about single
lines move with their lines, and of the lines that define a name always all but one are reported. -/

namespace AsmLint

section Rearrangement

variable {lines : List (List Char)}

/-- The lines in another order: each line stands where `move` puts it. -/
def rearrange (lines : List (List Char)) (move : Equiv.Perm (Fin lines.length)) :
    List (List Char) :=
  List.ofFn fun line => lines.get (move.symm line)

def newLine {count : Nat} (move : Equiv.Perm (Fin count)) (line : Nat) : Nat :=
  if bound : line < count then move ⟨line, bound⟩ else line

theorem rearrange_perm (lines : List (List Char)) (move : Equiv.Perm (Fin lines.length)) :
    (rearrange lines move).Perm lines := by
  have same := Equiv.Perm.ofFn_comp_perm move.symm lines.get
  rw [List.ofFn_get] at same
  exact same

theorem zipIdx_eq_ofFn (lines : List (List Char)) :
    lines.zipIdx = List.ofFn fun line : Fin lines.length => (lines.get line, line.val) := by
  apply List.ext_getElem
  · simp
  · intro line _ _
    simp

theorem zipIdx_rearrange (lines : List (List Char)) (move : Equiv.Perm (Fin lines.length)) :
    (rearrange lines move).zipIdx =
      List.ofFn fun line : Fin lines.length => (lines.get (move.symm line), line.val) := by
  apply List.ext_getElem
  · simp [rearrange]
  · intro line _ _
    simp [rearrange]

theorem zipIdx_rearrange_perm (lines : List (List Char)) (move : Equiv.Perm (Fin lines.length)) :
    (rearrange lines move).zipIdx.Perm
      (lines.zipIdx.map fun numbered => (numbered.1, newLine move numbered.2)) := by
  have moved : (lines.zipIdx.map fun numbered => (numbered.1, newLine move numbered.2)) =
      List.ofFn
        ((fun line : Fin lines.length => (lines.get (move.symm line), line.val)) ∘ move) := by
    rw [zipIdx_eq_ofFn, List.map_ofFn]
    congr 1
    funext line
    simp [newLine]
  rw [zipIdx_rearrange, moved]
  exact (Equiv.Perm.ofFn_comp_perm move _).symm

end Rearrangement

section Symbols

variable {lines other : List (List Char)} {name : String}

def Flat (lines : List (List Char)) : Prop := ∀ raw ∈ lines, '\x7b' ∉ codePart raw

instance (lines : List (List Char)) : Decidable (Flat lines) :=
  inferInstanceAs (Decidable (∀ raw ∈ lines, '\x7b' ∉ codePart raw))

theorem Flat.perm (flat : Flat lines) (same : other.Perm lines) : Flat other :=
  fun raw member => flat raw (same.mem_iff.1 member)

theorem Flat.not_inBlock (flat : Flat lines) (line : Nat) : ¬ InBlock lines line := by
  have none : openBraces (lines.take (line + 1)) = 0 := by
    rw [openBraces, codeOf, List.count_eq_zero, List.mem_flatMap]
    rintro ⟨raw, member, opens⟩
    exact flat raw (List.mem_of_mem_take member) opens
  rw [InBlock, none]
  omega

theorem introduces_iff_of_flat {isKeyword : String → Bool} (flat : Flat lines) :
    Introduces isKeyword lines name ↔
      ∃ raw ∈ lines, LineIntroduces isKeyword False (codePart raw) name := by
  have outside (line : Nat) :
      (0 < (Nesting.zero.after (lines.take (line + 1))).braceDepth) = False := by
    rw [eq_iff_iff, ← Nesting.inBlock_iff, iff_false]
    exact flat.not_inBlock line
  simp only [introduces_iff_zero, IntroducesFrom, outside, List.mem_iff_getElem?]
  grind

theorem contains_build_perm (grammar : Grammar) (flat : Flat lines) (same : other.Perm lines) :
    (SymbolTable.build grammar other).contains name =
      (SymbolTable.build grammar lines).contains name := by
  rw [Bool.eq_iff_iff, (SymbolTable.describes_build grammar other).known,
    (SymbolTable.describes_build grammar lines).known, introduces_iff_of_flat flat,
    introduces_iff_of_flat (flat.perm same)]
  simp only [same.mem_iff]

theorem NameSet.eq_of_contains {a b : NameSet}
    (same : ∀ name, a.contains name = true ↔ b.contains name = true) : a = b := by
  apply NameSet.ext
  apply a.sorted.eq_of_mem_iff b.sorted
  intro name
  simpa [contains] using same name

theorem declarations_build_perm (grammar : Grammar) (same : other.Perm lines) :
    (SymbolTable.build grammar other).declarations =
      (SymbolTable.build grammar lines).declarations := by
  have declared (lines : List (List Char)) (name : String) :
      (SymbolTable.build grammar lines).declarations.contains name = true ↔
        ∃ raw ∈ lines, ∃ token, Declares grammar.isDeclarationKeyword (codePart raw) token ∧
          token.name = name := by
    rw [(SymbolTable.describes_build grammar lines).declarations]
    simp only [DeclaredAt, List.mem_iff_getElem?]
    grind
  apply NameSet.eq_of_contains
  intro name
  simp only [declared, same.mem_iff]

end Symbols

section Findings

variable {lines other : List (List Char)}

def Diagnostic.moveLine (place : Nat → Nat) (finding : Diagnostic) : Diagnostic :=
  { finding with span := finding.span.map fun span => { span with line := place span.line } }

theorem usageFinding_moved (place : Nat → Nat) (line : Nat) (code : List Char)
    (instruction : Instruction) (usage : Usage) :
    usageFinding (place line) code instruction usage =
      Diagnostic.moveLine place ∘ usageFinding line code instruction usage := by
  have span : usageSpan (place line) code instruction =
      { usageSpan line code instruction with
        line := place (usageSpan line code instruction).line } := by
    unfold usageSpan
    split <;> rfl
  funext mismatches
  simp only [usageFinding, span]
  rfl

theorem checkUsage_moved (grammar : Grammar) (place : Nat → Nat) (line : Nat) (code : List Char) :
    checkUsage grammar (place line) code =
      (checkUsage grammar line code).map (Diagnostic.moveLine place) := by
  simp only [checkUsage, usageFinding_moved, Option.map_bind, Option.map_map, Function.comp_def]

theorem checkReferences_moved (grammar : Grammar) {symbols : SymbolTable} {others : SymbolTable}
    (same : ∀ name, others.contains name = symbols.contains name) (place : Nat → Nat) (line : Nat)
    (code : List Char) :
    checkReferences grammar others (place line) code =
      (checkReferences grammar symbols line code).map (Diagnostic.moveLine place) := by
  simp only [checkReferences, undefinedNames, isResolved, same, List.map_map]
  rfl

theorem flatMap_rearrange_perm {check checkMoved : List Char × Nat → List Diagnostic}
    {move : Equiv.Perm (Fin lines.length)}
    (moved : ∀ raw line, checkMoved (raw, newLine move line) =
      (check (raw, line)).map (Diagnostic.moveLine (newLine move))) :
    ((rearrange lines move).zipIdx.flatMap checkMoved).Perm
      ((lines.zipIdx.flatMap check).map (Diagnostic.moveLine (newLine move))) := by
  have reordered := (zipIdx_rearrange_perm lines move).flatMap_right checkMoved
  simp only [List.flatMap_map, moved] at reordered
  rw [List.map_flatMap]
  exact reordered

theorem lineWise_rearrange_perm (grammar : Grammar) (flat : Flat lines)
    (move : Equiv.Perm (Fin lines.length)) {code : Code}
    (lineWise : code ∈ [Code.invalidUsage, .undefinedSymbol]) :
    (findingsOf code (validateLines grammar (rearrange lines move)).issues).Perm
      ((findingsOf code (validateLines grammar lines).issues).map
        (Diagnostic.moveLine (newLine move))) := by
  simp only [List.mem_cons, List.not_mem_nil, or_false] at lineWise
  rcases lineWise with rfl | rfl
  · rw [findingsOf_invalidUsage, findingsOf_invalidUsage]
    apply flatMap_rearrange_perm
    intro raw line
    rw [checkUsage_moved, Option.toList_map]
  · rw [findingsOf_undefinedSymbol, findingsOf_undefinedSymbol]
    apply flatMap_rearrange_perm
    intro raw line
    exact checkReferences_moved grammar
      (fun name => contains_build_perm grammar flat (rearrange_perm lines move)) (newLine move) line
      (codePart raw)

def repeatsOf (issues : List Diagnostic) (kind : SymbolKind) (name : String) : List Diagnostic :=
  (findingsOf .duplicateDefinition issues).filter fun finding =>
    finding.value? "kind" = some kind.describe ∧ finding.value? "name" = some name

theorem SymbolKind.describe_inj {a b : SymbolKind} : a.describe = b.describe ↔ a = b := by
  cases a <;> cases b <;> simp [SymbolKind.describe]

theorem length_repeatsOf (grammar : Grammar) (lines : List (List Char)) (kind : SymbolKind)
    (name : String) :
    (repeatsOf (validateLines grammar lines).issues kind name).length =
      (definingLines lines kind name).length - 1 := by
  have about (definition : Definition) :
      (decide ((duplicateFinding (recordFor lines definition) definition.site).value? "kind" =
          some kind.describe ∧
        (duplicateFinding (recordFor lines definition) definition.site).value? "name" =
          some name)) = decide (definition.kind = kind ∧ definition.name = name) := by
    rw [decide_eq_decide, value?_duplicateFinding, value?_duplicateFinding]
    simp [recordFor, Registry.recordOf, Dict.lookup_first, SymbolKind.describe_inj]
  rw [repeatsOf, findingsOf_duplicateDefinition, checkDuplicates_eq, List.filter_map,
    List.length_map]
  simp only [Function.comp_def, about]
  rw [filter_repeated, List.length_tail, definingLines_eq, List.length_map]

theorem definedOn_iff_of_flat (flat : Flat lines) {kind : SymbolKind} {name : String} {line : Nat}
    {raw : List Char} (here : lines[line]? = some raw) :
    DefinedOn lines kind name line ↔
      (definition? kind false (codePart raw)).any (·.name == name) = true := by
  have outside : InBlock lines line ↔ false = true := by simp [flat.not_inBlock line]
  simp only [DefinedOn, DefinedAt, outside, ← definition?_iff, here, Option.some.injEq,
    exists_eq_left', Option.any_eq_true, beq_iff_eq]
  grind

theorem length_definingLines_of_flat (flat : Flat lines) (kind : SymbolKind) (name : String) :
    (definingLines lines kind name).length = lines.countP fun raw =>
      (definition? kind false (codePart raw)).any (·.name == name) := by
  calc (definingLines lines kind name).length
    _ = (lines.zipIdx.map Prod.snd).countP fun line => DefinedOn lines kind name line := by
      rw [definingLines, ← List.countP_eq_length_filter, List.zipIdx_map_snd, List.range_eq_range']
    _ = (lines.zipIdx.map Prod.fst).countP fun raw =>
        (definition? kind false (codePart raw)).any (·.name == name) := by
      rw [List.countP_map, List.countP_map]
      apply List.countP_congr
      intro numbered member
      have here := List.mem_zipIdx_iff_getElem?.1 member
      simpa using definedOn_iff_of_flat flat here
    _ = _ := by rw [List.zipIdx_map_fst]

theorem braceDepth_build_perm (grammar : Grammar) (same : other.Perm lines) :
    (SymbolTable.build grammar other).nesting.braceDepth =
      (SymbolTable.build grammar lines).nesting.braceDepth := by
  have codes := same.flatMap_right codePart
  rw [(SymbolTable.describes_build grammar other).nesting,
    (SymbolTable.describes_build grammar lines).nesting, Nesting.after_braceDepth,
    Nesting.after_braceDepth]
  simp only [openBraces, closeBraces, codeOf, codes.count_eq]

end Findings

/-- Lines that open no block can be put in any order. What is found about the use of a line and the
names in it moves with the line. Of each name as many definitions are reported as before, the same
names are known and declared, and the braces are as unbalanced as they were. -/
theorem report_of_rearranged_lines (grammar : Grammar) (lines : List (List Char))
    (move : Equiv.Perm (Fin lines.length)) (flat : Flat lines) :
    let report := validateLines grammar lines
    let moved := validateLines grammar (rearrange lines move)
    (∀ code ∈ [Code.invalidUsage, .undefinedSymbol],
      (findingsOf code moved.issues).Perm
        ((findingsOf code report.issues).map (Diagnostic.moveLine (newLine move)))) ∧
    (∀ kind name, (repeatsOf moved.issues kind name).length =
      (repeatsOf report.issues kind name).length) ∧
    (∀ name, moved.symbols.contains name = report.symbols.contains name) ∧
    moved.symbols.declarations = report.symbols.declarations ∧
    findingsOf .unbalancedBlock moved.issues = findingsOf .unbalancedBlock report.issues := by
  have same := rearrange_perm lines move
  refine ⟨fun code lineWise => lineWise_rearrange_perm grammar flat move lineWise, ?_,
    fun name => contains_build_perm grammar flat same, declarations_build_perm grammar same, ?_⟩
  · intro kind name
    rw [length_repeatsOf, length_repeatsOf, length_definingLines_of_flat flat,
      length_definingLines_of_flat (Flat.perm flat same), same.countP_eq]
  · rw [findingsOf_unbalancedBlock, findingsOf_unbalancedBlock, checkBraces, checkBraces,
      braceDepth_build_perm grammar same]

theorem report_of_moved_repeats :
    let lines := ["a:", "JP a", "a:"].map String.toList
    let move : Equiv.Perm (Fin lines.length) := Equiv.swap ⟨0, by decide⟩ ⟨1, by decide⟩
    Flat lines ∧ rearrange lines move = ["JP a", "a:", "a:"].map String.toList ∧
      (repeatsOf (validateLines z80Grammar (rearrange lines move)).issues .label "a").length =
        1 := by
  intro lines move
  have flat : Flat lines := by decide
  refine ⟨flat, by decide, ?_⟩
  have ⟨_, repeats, _⟩ := report_of_rearranged_lines z80Grammar lines move flat
  rw [repeats, length_repeatsOf]
  decide

end AsmLint
