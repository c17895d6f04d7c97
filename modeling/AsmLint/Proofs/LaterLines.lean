import AsmLint.Proofs.Positions
import AsmLint.Proofs.Usage

/-! What more lines at the end of a document can change. Of what is found above them they only take
back that a name is undefined, if they introduce it. The symbol table keeps its records in their
places, and what is added stands on the lines that are added. -/

namespace AsmLint

section Growth

/-- The second record is the first with places at its end that stand from the line on. -/
def SymbolRecord.GrowsFrom (line : Nat) (record grown : SymbolRecord) : Prop :=
  ∃ later : List Site, grown = { record with definitions := record.definitions ++ later } ∧
    ∀ site ∈ later, line ≤ site.line

def Registry.GrowsFrom (line : Nat) (registry grown : Registry) : Prop :=
  ∀ (position : Nat) (record : SymbolRecord), registry.records[position]? = some record →
    ∃ more, grown.records[position]? = some more ∧ record.GrowsFrom line more

def SymbolTable.GrowsFrom (line : Nat) (table grown : SymbolTable) : Prop :=
  ∀ kind, (table.registry kind).GrowsFrom line (grown.registry kind)

variable {line : Nat}

theorem SymbolRecord.GrowsFrom.refl (record : SymbolRecord) : record.GrowsFrom line record :=
  ⟨[], by simp, by simp⟩

theorem SymbolRecord.GrowsFrom.trans {record middle grown : SymbolRecord}
    (first : record.GrowsFrom line middle) (second : middle.GrowsFrom line grown) :
    record.GrowsFrom line grown := by
  obtain ⟨later, rfl, places⟩ := first
  obtain ⟨others, rfl, otherPlaces⟩ := second
  refine ⟨later ++ others, by simp, fun site member => ?_⟩
  rcases List.mem_append.1 member with member | member
  · exact places site member
  · exact otherPlaces site member

theorem Registry.GrowsFrom.refl (registry : Registry) : registry.GrowsFrom line registry :=
  fun _ record here => ⟨record, here, .refl record⟩

theorem Registry.GrowsFrom.trans {registry middle grown : Registry}
    (first : registry.GrowsFrom line middle) (second : middle.GrowsFrom line grown) :
    registry.GrowsFrom line grown := by
  intro position record here
  obtain ⟨more, kept, growth⟩ := first position record here
  obtain ⟨most, kept, further⟩ := second position more kept
  exact ⟨most, kept, growth.trans further⟩

theorem Registry.growsFrom_define (registry : Registry) (kind : SymbolKind) (name : String)
    {site : Site} (later : line ≤ site.line) :
    registry.GrowsFrom line (registry.define kind name site) := by
  intro position record here
  rw [define]
  split
  case h_1 changed _ =>
    rw [List.getElem?_modify, here]
    refine ⟨_, rfl, ?_⟩
    dsimp only
    split
    · exact ⟨[site], rfl, by simpa using later⟩
    · exact .refl record
  case h_2 =>
    have bound := (List.getElem?_eq_some_iff.1 here).1
    exact ⟨record, by rw [List.getElem?_append_left bound, here], .refl record⟩

namespace SymbolTable

theorem GrowsFrom.trans {table middle grown : SymbolTable} (first : table.GrowsFrom line middle)
    (second : middle.GrowsFrom line grown) : table.GrowsFrom line grown :=
  fun kind => (first kind).trans (second kind)

theorem growsFrom_apply_define (table : SymbolTable) (kind : SymbolKind) {number : Nat}
    (later : line ≤ number) (found : Option Token) :
    table.GrowsFrom line (apply (define · kind number ·) table found) := by
  intro other
  by_cases same : kind = other
  · subst same
    cases found with
    | none => exact .refl _
    | some token => cases kind <;> exact Registry.growsFrom_define _ _ _ later
  · rw [apply_define_registry_of_ne _ _ _ same]
    exact .refl _

theorem growsFrom_observe (grammar : Grammar) (table : SymbolTable) {number : Nat}
    (later : line ≤ number) (raw : List Char) :
    table.GrowsFrom line (observe grammar table number raw) := by
  have nesting : table.GrowsFrom line
      { table with nesting := table.nesting.observe (codePart raw) } := by
    intro kind
    cases kind <;> exact .refl _
  intro kind
  rw [observe, apply_declare_registry]
  exact ((nesting.trans (growsFrom_apply_define _ .label later _)).trans
    (growsFrom_apply_define _ .var later _)) kind

theorem growsFrom_build_append (grammar : Grammar) (lines more : List (List Char)) :
    (build grammar lines).GrowsFrom lines.length (build grammar (lines ++ more)) := by
  induction more using List.reverseRecOn with
  | nil =>
    rw [List.append_nil]
    exact fun kind => .refl _
  | append_singleton more raw ih =>
    rw [← List.append_assoc, build_append]
    exact ih.trans (growsFrom_observe grammar _ (by simp) raw)

end SymbolTable

end Growth

section Introduction

variable {isKeyword : String → Bool} {start : Nesting} {lines more : List (List Char)}
  {name : String}

def LineIntroduces (isKeyword : String → Bool) (inBlock : Prop) (code : List Char)
    (name : String) : Prop :=
  (∃ kind token, Defines kind inBlock code token ∧ token.name = name) ∨
    ∃ token, Declares isKeyword code token ∧ token.name = name

/-- Some line introduces the name, when the lines are read with the nesting at the start. -/
def IntroducesFrom (isKeyword : String → Bool) (start : Nesting) (lines : List (List Char))
    (name : String) : Prop :=
  ∃ (line : Nat) (raw : List Char), lines[line]? = some raw ∧
    LineIntroduces isKeyword (0 < (start.after (lines.take (line + 1))).braceDepth) (codePart raw)
      name

theorem lineIntroduces_iff {inBlock : Prop} [Decidable inBlock] {code : List Char} :
    LineIntroduces isKeyword inBlock code name ↔
      (∃ kind ∈ [SymbolKind.label, .var], ∃ token ∈ definition? kind inBlock code,
          token.name = name) ∨
        ∃ token ∈ declaration? isKeyword code, token.name = name := by
  simp only [LineIntroduces, Option.mem_def, definition?_iff, declaration?_iff, decide_eq_true_iff,
    SymbolKind.exists_iff, List.exists_mem_cons_iff, List.not_mem_nil, false_and, exists_false,
    or_false]

instance (inBlock : Prop) [Decidable inBlock] (code : List Char) :
    Decidable (LineIntroduces isKeyword inBlock code name) :=
  decidable_of_iff _ lineIntroduces_iff.symm

instance : Decidable (IntroducesFrom isKeyword start lines name) :=
  decidable_of_iff (∃ line ∈ List.range lines.length, ∃ raw ∈ lines[line]?,
      LineIntroduces isKeyword (0 < (start.after (lines.take (line + 1))).braceDepth)
        (codePart raw) name) <| by
    constructor
    · rintro ⟨line, -, raw, here, introduces⟩
      exact ⟨line, raw, here, introduces⟩
    · rintro ⟨line, raw, here, introduces⟩
      exact ⟨line, List.mem_range.2 (List.getElem?_eq_some_iff.1 here).1, raw, here, introduces⟩

theorem introduces_iff_zero :
    Introduces isKeyword lines name ↔ IntroducesFrom isKeyword .zero lines name := by
  simp only [Introduces, IntroducesFrom, LineIntroduces, DefinedAt, DeclaredAt, Nesting.inBlock_iff]
  constructor
  · rintro (⟨⟨kind, line, token⟩, ⟨raw, here, defines⟩, named⟩ |
      ⟨line, token, ⟨raw, here, declares⟩, named⟩)
    · exact ⟨line, raw, here, .inl ⟨kind, token, defines, named⟩⟩
    · exact ⟨line, raw, here, .inr ⟨token, declares, named⟩⟩
  · rintro ⟨line, raw, here, ⟨kind, token, defines, named⟩ | ⟨token, declares, named⟩⟩
    · exact .inl ⟨⟨kind, line, token⟩, ⟨raw, here, defines⟩, named⟩
    · exact .inr ⟨line, token, ⟨raw, here, declares⟩, named⟩

theorem introducesFrom_append_iff :
    IntroducesFrom isKeyword start (lines ++ more) name ↔
      IntroducesFrom isKeyword start lines name ∨
        IntroducesFrom isKeyword (start.after lines) more name := by
  constructor
  · rintro ⟨line, raw, here, introduces⟩
    by_cases above : line < lines.length
    · rw [List.getElem?_append_left above] at here
      rw [List.take_append_of_le_length above] at introduces
      exact .inl ⟨line, raw, here, introduces⟩
    · obtain ⟨later, rfl⟩ := Nat.exists_eq_add_of_le (Nat.le_of_not_lt above)
      rw [List.getElem?_append_right (Nat.le_add_right _ _), Nat.add_sub_cancel_left] at here
      rw [Nat.add_assoc, List.take_length_add_append, Nesting.after_append] at introduces
      exact .inr ⟨later, raw, here, introduces⟩
  · rintro (⟨line, raw, here, introduces⟩ | ⟨later, raw, here, introduces⟩)
    · have above := (List.getElem?_eq_some_iff.1 here).1
      refine ⟨line, raw, ?_, ?_⟩
      · rw [List.getElem?_append_left above, here]
      · rw [List.take_append_of_le_length above]
        exact introduces
    · refine ⟨lines.length + later, raw, ?_, ?_⟩
      · rw [List.getElem?_append_right (Nat.le_add_right _ _), Nat.add_sub_cancel_left, here]
      · rw [Nat.add_assoc, List.take_length_add_append, Nesting.after_append]
        exact introduces

theorem contains_build_append (grammar : Grammar) :
    (SymbolTable.build grammar (lines ++ more)).contains name = true ↔
      (SymbolTable.build grammar lines).contains name = true ∨
        IntroducesFrom grammar.isDeclarationKeyword (SymbolTable.build grammar lines).nesting more
          name := by
  rw [(SymbolTable.describes_build grammar _).known, (SymbolTable.describes_build grammar _).known,
    (SymbolTable.describes_build grammar lines).nesting, introduces_iff_zero, introduces_iff_zero,
    introducesFrom_append_iff]

end Introduction

/-- The findings are those given, all on lines above `line`, and then others from the line on. -/
def ContinuedFrom (line : Nat) (above findings : List Diagnostic) : Prop :=
  (∀ finding ∈ above, ∃ span, finding.span = some span ∧ span.line < line) ∧
    ∃ later, findings = above ++ later ∧
      ∀ finding ∈ later, ∃ span, finding.span = some span ∧ line ≤ span.line

section LineWise

variable {grammar : Grammar} {lines more : List (List Char)}

theorem continuedFrom_flatMap {check : List Char × Nat → List Diagnostic}
    (placed : ∀ numbered, ∀ finding ∈ check numbered,
      finding.Marks numbered.2 (codePart numbered.1))
    (lines more : List (List Char)) :
    ContinuedFrom lines.length (lines.zipIdx.flatMap check)
      ((lines ++ more).zipIdx.flatMap check) := by
  refine ⟨?_, (more.zipIdx lines.length).flatMap check, ?_, ?_⟩
  · intro finding member
    obtain ⟨numbered, listed, found⟩ := List.mem_flatMap.1 member
    obtain ⟨span, marked, sameLine, -⟩ := placed numbered finding found
    exact ⟨span, marked, sameLine ▸ List.snd_lt_of_mem_zipIdx listed⟩
  · rw [List.zipIdx_append, List.flatMap_append, Nat.zero_add]
  · intro finding member
    obtain ⟨numbered, listed, found⟩ := List.mem_flatMap.1 member
    obtain ⟨span, marked, sameLine, -⟩ := placed numbered finding found
    exact ⟨span, marked, sameLine ▸ List.le_snd_of_mem_zipIdx listed⟩

theorem usage_continuedFrom (grammar : Grammar) (lines more : List (List Char)) :
    ContinuedFrom lines.length (findingsOf .invalidUsage (validateLines grammar lines).issues)
      (findingsOf .invalidUsage (validateLines grammar (lines ++ more)).issues) := by
  rw [findingsOf_invalidUsage, findingsOf_invalidUsage]
  apply continuedFrom_flatMap
  intro numbered finding found
  exact marks_checkUsage (Option.mem_toList.1 found)

def StaysUndefined (isKeyword : String → Bool) (start : Nesting) (lines : List (List Char))
    (finding : Diagnostic) : Prop :=
  ∀ name ∈ finding.value? "name", ¬ IntroducesFrom isKeyword start lines name

instance (isKeyword : String → Bool) (start : Nesting) (lines : List (List Char)) :
    DecidablePred (StaysUndefined isKeyword start lines) :=
  fun finding => inferInstanceAs (Decidable (∀ name ∈ finding.value? "name", _))

theorem staysUndefined_referenceFinding {isKeyword : String → Bool} {start : Nesting} {line : Nat}
    {token : Token} :
    StaysUndefined isKeyword start more (referenceFinding line token) ↔
      ¬ IntroducesFrom isKeyword start more token.name := by
  have named : (referenceFinding line token).value? "name" = some token.name :=
    Diagnostic.value?_ofCode ..
  simp [StaysUndefined, named]

theorem isResolved_append {name : String} :
    isResolved grammar (.build grammar (lines ++ more)) name = true ↔
      isResolved grammar (.build grammar lines) name = true ∨
        IntroducesFrom grammar.isDeclarationKeyword (SymbolTable.build grammar lines).nesting more
          name := by
  simp only [isResolved, Bool.or_eq_true, contains_build_append, or_assoc]

theorem checkReferences_append (grammar : Grammar) (lines more : List (List Char)) (line : Nat)
    (code : List Char) :
    checkReferences grammar (.build grammar (lines ++ more)) line code =
      (checkReferences grammar (.build grammar lines) line code).filter fun finding =>
        StaysUndefined grammar.isDeclarationKeyword (SymbolTable.build grammar lines).nesting more
          finding := by
  unfold checkReferences undefinedNames
  rw [List.filter_map, List.filter_filter]
  congr 1
  apply List.filter_congr
  intro token _
  rw [Bool.eq_iff_iff]
  simp only [Bool.and_eq_true, Bool.not_eq_true', ← Bool.not_eq_true, isResolved_append,
    Function.comp_apply, decide_eq_true_iff, staysUndefined_referenceFinding]
  grind

theorem references_continuedFrom (grammar : Grammar) (lines more : List (List Char)) :
    ContinuedFrom lines.length
      ((findingsOf .undefinedSymbol (validateLines grammar lines).issues).filter fun finding =>
        StaysUndefined grammar.isDeclarationKeyword (SymbolTable.build grammar lines).nesting more
          finding)
      (findingsOf .undefinedSymbol (validateLines grammar (lines ++ more)).issues) := by
  rw [findingsOf_undefinedSymbol, findingsOf_undefinedSymbol, List.filter_flatMap]
  simp only [← checkReferences_append]
  apply continuedFrom_flatMap
  intro numbered finding found
  exact marks_checkReferences found

end LineWise

section Repeats

variable {lines more : List (List Char)} {definition : Definition}

theorem line_lt_of_mem_definitions (member : definition ∈ definitions lines) :
    definition.line < lines.length := by
  obtain ⟨raw, here, -⟩ := mem_definitions_iff.1 member
  exact (List.getElem?_eq_some_iff.1 here).1

theorem exists_definitions_append (lines more : List (List Char)) :
    ∃ later, definitions (lines ++ more) = definitions lines ++ later ∧
      ∀ definition ∈ later, lines.length ≤ definition.line := by
  induction more using List.reverseRecOn with
  | nil => exact ⟨[], by simp, by simp⟩
  | append_singleton more raw ih =>
    obtain ⟨later, split, below⟩ := ih
    refine ⟨later ++ definitionsAt (lines ++ more ++ [raw]) (lines ++ more).length, ?_, ?_⟩
    · rw [← List.append_assoc, definitions_append, split, List.append_assoc]
    · intro definition member
      rcases List.mem_append.1 member with member | member
      · exact below definition member
      · obtain ⟨sameLine, -⟩ := mem_definitionsAt_iff.1 member
        simp [sameLine]

theorem isRepeated_append_iff (member : definition ∈ definitions lines) :
    IsRepeated (lines ++ more) definition ↔ IsRepeated lines definition := by
  obtain ⟨later, split, below⟩ := exists_definitions_append lines more
  have above := line_lt_of_mem_definitions member
  simp only [IsRepeated, definitionsOf, split, List.filter_append, List.mem_append]
  constructor
  · rintro ⟨earlier, inAbove | inLater, less⟩
    · exact ⟨earlier, inAbove, less⟩
    · have := below earlier (List.mem_filter.1 inLater).1
      omega
  · rintro ⟨earlier, inAbove, less⟩
    exact ⟨earlier, .inl inAbove, less⟩

theorem exists_repeated_append (lines more : List (List Char)) :
    ∃ later, repeated (lines ++ more) = repeated lines ++ later ∧
      ∀ definition ∈ later, lines.length ≤ definition.line := by
  obtain ⟨later, split, below⟩ := exists_definitions_append lines more
  refine ⟨later.filter fun definition => IsRepeated (lines ++ more) definition, ?_, ?_⟩
  · rw [repeated, split, List.filter_append, repeated]
    congr 1
    apply List.filter_congr
    intro definition member
    exact decide_eq_decide.2 (isRepeated_append_iff member)
  · intro definition member
    exact below definition (List.mem_filter.1 member).1

theorem firstLine_append (member : definition ∈ definitions lines) (site : Site) :
    firstLine (recordFor (lines ++ more) definition) site =
      firstLine (recordFor lines definition) site := by
  obtain ⟨later, split, -⟩ := exists_definitions_append lines more
  have whole : definition ∈ definitions (lines ++ more) := by
    rw [split]
    exact List.mem_append_left later member
  have first := firstLine_recordFor whole site
  rw [definingLines_eq, definitionsOf, split, List.filter_append, List.map_append,
    ← definitionsOf, ← definingLines_eq, List.head?_append, firstLine_recordFor member site,
    Option.some_or, Option.some.injEq] at first
  exact first.symm

theorem duplicateFinding_append (member : definition ∈ definitions lines) :
    duplicateFinding (recordFor (lines ++ more) definition) definition.site =
      duplicateFinding (recordFor lines definition) definition.site := by
  unfold duplicateFinding
  rw [firstLine_append member]
  rfl

theorem repeats_continuedFrom (grammar : Grammar) (lines more : List (List Char)) :
    ContinuedFrom lines.length
      (findingsOf .duplicateDefinition (validateLines grammar lines).issues)
      (findingsOf .duplicateDefinition (validateLines grammar (lines ++ more)).issues) := by
  obtain ⟨later, split, below⟩ := exists_repeated_append lines more
  rw [findingsOf_duplicateDefinition, findingsOf_duplicateDefinition, checkDuplicates_eq,
    checkDuplicates_eq, split, List.map_append]
  refine ⟨?_, _, congrArg (· ++ _) ?_, ?_⟩
  · intro finding member
    obtain ⟨definition, isRepeated, rfl⟩ := List.mem_map.1 member
    exact ⟨_, rfl, line_lt_of_mem_definitions (List.mem_filter.1 isRepeated).1⟩
  · apply List.map_congr_left
    intro definition member
    exact duplicateFinding_append (List.mem_filter.1 member).1
  · intro finding member
    obtain ⟨definition, isLater, rfl⟩ := List.mem_map.1 member
    exact ⟨_, rfl, below definition isLater⟩

end Repeats

/-- More lines at the end of a document. Findings about usage and repeated definitions above them
stay as they are, and of the undefined names exactly those that the lines introduce are no longer
reported. All other findings of these kinds stand on the lines that are added. The records of the
symbol table grow in their places, and the nesting goes on from where it was. -/
theorem report_of_more_lines (grammar : Grammar) (lines more : List (List Char)) :
    let report := validateLines grammar lines
    let longer := validateLines grammar (lines ++ more)
    ContinuedFrom lines.length (findingsOf .invalidUsage report.issues)
      (findingsOf .invalidUsage longer.issues) ∧
    ContinuedFrom lines.length
      ((findingsOf .undefinedSymbol report.issues).filter fun finding =>
        StaysUndefined grammar.isDeclarationKeyword report.symbols.nesting more finding)
      (findingsOf .undefinedSymbol longer.issues) ∧
    ContinuedFrom lines.length (findingsOf .duplicateDefinition report.issues)
      (findingsOf .duplicateDefinition longer.issues) ∧
    report.symbols.GrowsFrom lines.length longer.symbols ∧
    longer.symbols.nesting = report.symbols.nesting.after more := by
  refine ⟨usage_continuedFrom grammar lines more, references_continuedFrom grammar lines more,
    repeats_continuedFrom grammar lines more,
    SymbolTable.growsFrom_build_append grammar lines more, ?_⟩
  have nesting := (SymbolTable.describes_build grammar (lines ++ more)).nesting
  rw [Nesting.after_append, ← (SymbolTable.describes_build grammar lines).nesting] at nesting
  exact nesting

end AsmLint
