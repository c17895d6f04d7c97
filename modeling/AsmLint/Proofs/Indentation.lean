import AsmLint.Proofs.Positions

/-! Indentation. Spaces and tabs in front of a line move what stands on the line and change nothing
else: every scanner finds on the indented line what it finds on the line, so many columns further to
the right, and every check makes the same findings there. -/

namespace AsmLint

def isIndent (c : Char) : Bool := c == ' ' || c == '\t'

theorem AllIn.of_indent {inClass : Char → Bool} {indent : List Char} (blank : AllIn isIndent indent)
    (both : inClass ' ' = true ∧ inClass '\t' = true) : AllIn inClass indent := by
  intro c member
  have first := blank c member
  simp only [isIndent, Bool.or_eq_true, beq_iff_eq] at first
  rcases first with rfl | rfl
  · exact both.1
  · exact both.2

section Moving

variable (columns : Nat)

def Extent.moved (extent : Extent) : Extent := ⟨extent.start + columns, extent.stop + columns⟩

def Token.moved (token : Token) : Token := { token with start := token.start + columns }

def Lead.moved (lead : Lead) : Lead := { lead with column := lead.column + columns }

def Instruction.moved (instruction : Instruction) : Instruction :=
  { instruction with column := instruction.column + columns }

end Moving

section Literals

variable {columns : Nat} {quoted : List Extent}

theorem literalsFrom_moved (columns position : Nat) (text : List Char) :
    literalsFrom (position + columns) text =
      (literalsFrom position text).map (Extent.moved columns) := by
  fun_induction literalsFrom position text with
  | case1 => rw [literalsFrom, List.map_nil]
  | case2 position c rest quote size closes ih =>
    have after : position + columns + 1 + size = position + 1 + size + columns := by omega
    rw [literalsFrom, if_pos quote, closes, List.map_cons, ← ih]
    dsimp only
    rw [after]
    rfl
  | case3 position c rest quote unclosed ih =>
    rw [literalsFrom, if_pos quote, unclosed, ← ih, Nat.add_right_comm]
  | case4 position c rest plain ih =>
    rw [literalsFrom, if_neg plain, ← ih, Nat.add_right_comm]

theorem literals_indented {indent : List Char} (blank : AllIn isIndent indent) (code : List Char) :
    literals (indent ++ code) = (literals code).map (Extent.moved indent.length) := by
  have plain : AllIn (fun c => !isQuote c) indent := blank.of_indent (by decide)
  rw [literals, literalsFrom_append plain, literalsFrom_moved, literals]

theorem insideAny_moved (start length : Nat) :
    insideAny (quoted.map (Extent.moved columns)) (start + columns) length =
      insideAny quoted start length := by
  simp only [insideAny, List.any_map, Function.comp_def, Extent.moved, Nat.add_le_add_iff_right,
    Nat.add_right_comm start columns length]

theorem inside_moved (token : Token) :
    (token.moved columns).inside (quoted.map (Extent.moved columns)) = token.inside quoted :=
  insideAny_moved token.start token.text.length

theorem commaPieces_moved (position : Nat) (text : List Char) :
    commaPieces (quoted.map (Extent.moved columns)) (position + columns) text =
      commaPieces quoted position text := by
  induction text generalizing position with
  | nil => rfl
  | cons c rest ih =>
    have next := ih (position + 1)
    rw [Nat.add_right_comm] at next
    rw [commaPieces, commaPieces, insideAny_moved, next]

end Literals

section Names

theorem namesFrom_moved (columns position : Nat) (afterDollar : Bool) (text : List Char) :
    namesFrom (position + columns) afterDollar text =
      (namesFrom position afterDollar text).map (Token.moved columns) := by
  fun_induction namesFrom position afterDollar text with
  | case1 => rw [namesFrom, List.map_nil]
  | case2 position afterDollar c rest nameChar run others number ih =>
    rw [namesFrom, if_pos nameChar, if_pos number, ← ih, Nat.add_right_comm]
  | case3 position afterDollar c rest nameChar run others notNumber ih =>
    rw [namesFrom, if_pos nameChar, if_neg notNumber, List.map_cons, ← ih, Nat.add_right_comm]
    rfl
  | case4 position afterDollar c rest other ih =>
    rw [namesFrom, if_neg other, ← ih, Nat.add_right_comm]

theorem names_indented {indent : List Char} (blank : AllIn isIndent indent) (code : List Char) :
    names (indent ++ code) = (names code).map (Token.moved indent.length) := by
  have outside : AllIn (fun c => !isNameChar c && c != '$') indent := blank.of_indent (by decide)
  have passed (position : Nat) : namesFrom position false (indent ++ code) =
      namesFrom (position + indent.length) false code := by
    clear blank
    induction indent generalizing position with
    | nil => rfl
    | cons c indent ih =>
      obtain ⟨first, others⟩ := allIn_cons.1 outside
      have other : ¬ isNameChar c = true := by grind
      have noDollar : (c == '$') = false := by grind
      rw [List.cons_append, namesFrom, if_neg other, noDollar, ih others, List.length_cons]
      congr 1
      omega
  rw [names, passed, namesFrom_moved, names]

end Names

section Shape

variable {indent : List Char} (blank : AllIn isIndent indent) (code : List Char)

include blank

theorem codePart_indented : codePart (indent ++ code) = indent ++ codePart code :=
  List.takeWhile_append_of_pos (blank.of_indent (by decide))

theorem dropWhile_isBlank_indented : (indent ++ code).dropWhile isBlank = code.dropWhile isBlank :=
  List.dropWhile_append_of_pos (blank.of_indent (by decide))

theorem Lead.of?_indented : of? (indent ++ code) = (of? code).map (moved indent.length) := by
  have inside : AllIn isBlank indent := blank.of_indent (by decide)
  rw [of?, of?, dropWhile_isBlank_indented blank, List.takeWhile_append_of_pos inside,
    List.length_append]
  cases code.dropWhile isBlank with
  | nil => rfl
  | cons c rest =>
    by_cases start : isNameStart c = true
    · simp [start, moved, Nat.add_comm]
    · simp [start]

theorem startsWithKeyword_indented (keyword : List Char) :
    startsWithKeyword keyword (indent ++ code) = startsWithKeyword keyword code := by
  rw [startsWithKeyword, dropWhile_isBlank_indented blank, startsWithKeyword]

theorem statement_indented : statement (indent ++ code) = statement code := by
  have label : (Lead.of? (indent ++ code)).bind Lead.afterColon? =
      (Lead.of? code).bind Lead.afterColon? := by
    rw [Lead.of?_indented blank, Option.bind_map]
    rfl
  rw [statement, statement, label]
  cases (Lead.of? code).bind Lead.afterColon? with
  | none => exact dropWhile_isBlank_indented blank code
  | some tail => rfl

theorem trim_indented : trim (indent ++ code) = trim code := by
  rw [trim, trimStart, List.dropWhile_append_of_pos (blank.of_indent (by decide)), trim, trimStart]

theorem Instruction.of?_indented :
    of? (indent ++ code) = (of? code).map (moved indent.length) := by
  have shorter := (statement_suffix code).length_le
  have column : (indent ++ code).length - (statement code).length =
      code.length - (statement code).length + indent.length := by
    rw [List.length_append]
    omega
  rw [of?, of?, statement_indented blank, column]
  cases statement code with
  | nil => rfl
  | cons c rest =>
    dsimp only
    split
    · split
      · rfl
      · rfl
    · rfl

theorem definition?_indented (kind : SymbolKind) (inBlock : Bool) :
    definition? kind inBlock (indent ++ code) =
      (definition? kind inBlock code).map (Token.moved indent.length) := by
  cases kind with
  | label =>
    rw [definition?, definition?, labelDefinition?, labelDefinition?, Lead.of?_indented blank,
      Option.bind_map, Option.map_bind]
    apply Option.bind_congr
    intro lead _
    rw [Function.comp, Function.comp, Option.map_map]
    rfl
  | var =>
    rw [definition?, definition?, variableDefinition?, variableDefinition?,
      Lead.of?_indented blank, Option.bind_map, Option.map_bind]
    apply Option.bind_congr
    intro lead _
    rw [Function.comp, Function.comp]
    change (if definesVariable inBlock lead then some (lead.moved indent.length).token
      else none) = _
    split <;> rfl

theorem declaration?_indented (isKeyword : String → Bool) :
    declaration? isKeyword (indent ++ code) =
      (declaration? isKeyword code).map (Token.moved indent.length) := by
  rw [declaration?, declaration?, Lead.of?_indented blank, Option.bind_map, Option.map_bind]
  apply Option.bind_congr
  intro lead _
  rw [Function.comp, Function.comp]
  change (if isKeyword (String.ofList lead.name) && lead.spaced then
    (Lead.of? lead.rest).bind _ else none) = _
  split
  · rw [Option.map_bind]
    apply Option.bind_congr
    intro declared _
    dsimp only [Function.comp]
    split
    · rfl
    · simp only [Lead.moved, Token.moved, Option.map_some, Option.some.injEq, Token.mk.injEq,
        true_and]
      omega
  · rfl

theorem Nesting.observeMacro_indented (depth : Nat) :
    observeMacro depth (indent ++ code) = observeMacro depth code := by
  rw [observeMacro, observeMacro, opensMacro, closesMacro, startsWithKeyword_indented blank,
    startsWithKeyword_indented blank]
  rfl

theorem Nesting.observe_indented (nesting : Nesting) :
    nesting.observe (indent ++ code) = nesting.observe code := by
  have noBrace : AllIn (fun c => c != '\x7b' && c != '\x7d') indent :=
    blank.of_indent (by decide)
  have opens : indent.count '\x7b' = 0 :=
    List.count_eq_zero.2 fun member => by simpa using noBrace _ member
  have closes : indent.count '\x7d' = 0 :=
    List.count_eq_zero.2 fun member => by simpa using noBrace _ member
  simp only [observe, observeMacro_indented blank, foldl_observeBrace, List.count_append, opens,
    closes, Nat.zero_add]

end Shape

section Usage

variable {columns : Nat} {quoted : List Extent} (instruction : Instruction)

theorem operands_moved :
    operands (quoted.map (Extent.moved columns)) (instruction.moved columns) =
      operands quoted instruction := by
  have stop : (instruction.moved columns).stop = instruction.stop + columns :=
    Nat.add_right_comm ..
  rw [operands, operands, stop]
  change ((commaPieces _ (instruction.stop + columns) instruction.rest).map trim).filter _ = _
  rw [commaPieces_moved]

theorem mismatch?_moved (policy : OperandPolicy) (rule : Rule) :
    mismatch? policy (quoted.map (Extent.moved columns)) (instruction.moved columns) rule =
      mismatch? policy quoted instruction rule := by
  have same : operandsFor policy (quoted.map (Extent.moved columns)) (instruction.moved columns)
      rule = operandsFor policy quoted instruction rule := by
    rw [operandsFor, operandsFor, operands_moved]
    rfl
  rw [mismatch?, mismatch?, same]
  rfl

theorem mismatches?_moved (policy : OperandPolicy) (usage : Usage) :
    usage.mismatches? policy (quoted.map (Extent.moved columns)) (instruction.moved columns) =
      usage.mismatches? policy quoted instruction := by
  have same : ruleMismatch? policy (quoted.map (Extent.moved columns)) (instruction.moved columns)
      = ruleMismatch? policy quoted instruction := by
    funext rule
    cases rule with
    | ok rule => exact mismatch?_moved instruction policy rule
    | error error => rfl
  rw [Usage.mismatches?, same, Usage.mismatches?]

end Usage

/-! What indenting a line does to a report: what is said about the line moves with it. -/

def lineCodes : List Code := [.invalidUsage, .undefinedSymbol, .duplicateDefinition]

section Indented

variable (line columns : Nat)

def Span.indented (span : Span) : Span :=
  if span.line = line then ⟨span.line, span.start + columns, span.stop + columns⟩ else span

def Diagnostic.indented (issue : Diagnostic) : Diagnostic :=
  if issue.id ∈ lineCodes.map Code.id then
    { issue with span := issue.span.map (Span.indented line columns) }
  else issue

def Site.indented (site : Site) : Site :=
  if site.line = line then { site with column := site.column + columns } else site

def SymbolRecord.indented (record : SymbolRecord) : SymbolRecord :=
  { record with definitions := record.definitions.map (Site.indented line columns) }

def Registry.indented (registry : Registry) : Registry :=
  { registry with records := registry.records.map (SymbolRecord.indented line columns) }

def SymbolTable.indented (table : SymbolTable) : SymbolTable :=
  { table with
    labels := table.labels.indented line columns
    vars := table.vars.indented line columns }

def Report.indented (report : Report) : Report where
  issues := report.issues.map (Diagnostic.indented line columns)
  symbols := report.symbols.indented line columns

/-- The columns by which what stands on a line moves when `line` is indented. -/
def growth (number : Nat) : Nat := if number = line then columns else 0

end Indented

section Parts

variable {line columns : Nat}

theorem Span.indented_mk (number start stop : Nat) :
    (⟨number, start, stop⟩ : Span).indented line columns =
      ⟨number, start + growth line columns number, stop + growth line columns number⟩ := by
  by_cases here : number = line <;> simp [indented, growth, here]

theorem Site.indented_mk (number column : Nat) :
    (⟨number, column⟩ : Site).indented line columns =
      ⟨number, column + growth line columns number⟩ := by
  by_cases here : number = line <;> simp [indented, growth, here]

theorem Site.indented_line (site : Site) : (site.indented line columns).line = site.line := by
  rw [indented]
  split <;> rfl

theorem Diagnostic.indented_ofCode {code : Code} (listed : code ∈ lineCodes) (wording : Wording)
    (span : Span) (context : List (String × String)) :
    (ofCode code wording span context).indented line columns =
      ofCode code wording (span.indented line columns) context :=
  if_pos (List.mem_map_of_mem listed)

/-- Two sites of one line move together, so their order is kept. -/
theorem Site.upTo_indented (a b : Site) :
    (a.indented line columns).upTo (b.indented line columns) = a.upTo b := by
  obtain ⟨number, column⟩ := a
  obtain ⟨other, place⟩ := b
  rw [indented_mk, indented_mk, upTo, upTo]
  by_cases same : number = other
  · simp [same]
  · have differs : (number == other) = false := by simpa using same
    simp [differs]

theorem Registry.define_indented (registry : Registry) (kind : SymbolKind) (name : String)
    (site : Site) :
    (registry.indented line columns).define kind name (site.indented line columns) =
      (registry.define kind name site).indented line columns := by
  have position : (registry.indented line columns).positions = registry.positions := rfl
  rw [define, define, position]
  cases registry.positions.get? name with
  | none => simp [indented, SymbolRecord.indented]
  | some position =>
    have records : (registry.records.map (SymbolRecord.indented line columns)).modify position
        (addSite (site.indented line columns)) =
          (registry.records.modify position (addSite site)).map
            (SymbolRecord.indented line columns) := by
      apply List.ext_getElem?
      intro place
      simp only [List.getElem?_modify, List.getElem?_map, Option.map_eq_map, Option.map_map]
      congr 1
      funext record
      by_cases here : position = place <;> simp [here, addSite, SymbolRecord.indented]
    simp [indented, records]

theorem SymbolTable.define_indented (table : SymbolTable) (kind : SymbolKind) (number : Nat)
    (token : Token) :
    (table.indented line columns).define kind number (token.moved (growth line columns number)) =
      (table.define kind number token).indented line columns := by
  have site : (⟨number, (token.moved (growth line columns number)).start⟩ : Site) =
      (⟨number, token.start⟩ : Site).indented line columns := (Site.indented_mk _ _).symm
  cases kind with
  | label =>
    rw [define, define, site]
    simp only [indented, Registry.define_indented]
    rfl
  | var =>
    rw [define, define, site]
    simp only [indented, Registry.define_indented]
    rfl

theorem SymbolTable.apply_define_indented (table : SymbolTable) (kind : SymbolKind) (number : Nat)
    (found : Option Token) :
    apply (define · kind number ·) (table.indented line columns)
        (found.map (Token.moved (growth line columns number))) =
      (apply (define · kind number ·) table found).indented line columns := by
  cases found with
  | none => rfl
  | some token => exact define_indented table kind number token

theorem SymbolTable.apply_declare_indented (table : SymbolTable) (found : Option Token)
    (moved : Nat) :
    apply declare (table.indented line columns) (found.map (Token.moved moved)) =
      (apply declare table found).indented line columns := by
  cases found <;> rfl

end Parts

section Lines

variable {line : Nat} {indent : List Char}

def indentOf (line : Nat) (indent : List Char) (number : Nat) : List Char :=
  if number = line then indent else []

theorem length_indentOf (number : Nat) :
    (indentOf line indent number).length = growth line indent.length number := by
  by_cases here : number = line <;> simp [indentOf, growth, here]

theorem zipIdx_modify (lines : List (List Char)) :
    (lines.modify line (indent ++ ·)).zipIdx =
      lines.zipIdx.map fun numbered =>
        (indentOf line indent numbered.2 ++ numbered.1, numbered.2) := by
  apply List.ext_getElem?
  intro number
  simp only [List.getElem?_zipIdx, List.getElem?_modify, List.getElem?_map, Option.map_eq_map,
    Option.map_map]
  congr 1
  funext raw
  by_cases here : line = number
  · simp [indentOf, here]
  · simp [indentOf, here, Ne.symm here]

theorem allIn_indentOf (line : Nat) (blank : AllIn isIndent indent) (number : Nat) :
    AllIn isIndent (indentOf line indent number) := by
  rw [indentOf]
  split
  · exact blank
  · exact allIn_nil _

theorem usageSpan_indented (number : Nat) (code : List Char) (instruction : Instruction) :
    usageSpan number (indentOf line indent number ++ code)
        (instruction.moved (indentOf line indent number).length) =
      (usageSpan number code instruction).indented line indent.length := by
  have operandText : (instruction.moved (indentOf line indent number).length).operandText =
      instruction.operandText := rfl
  rw [usageSpan, usageSpan, operandText, length_indentOf]
  split
  · rw [Span.indented_mk, Instruction.moved, Instruction.stop, Nat.add_right_comm]
    rfl
  · rw [Span.indented_mk, List.length_append, length_indentOf, Nat.add_comm code.length,
      Instruction.operandColumn, Instruction.operandColumn, Instruction.stop, Instruction.stop]
    simp only [Instruction.moved, Span.mk.injEq, true_and, and_true]
    omega

theorem referenceFinding_indented (number : Nat) (token : Token) :
    referenceFinding number (token.moved (growth line indent.length number)) =
      (referenceFinding number token).indented line indent.length := by
  have stop : (token.moved (growth line indent.length number)).stop =
      token.stop + growth line indent.length number := Nat.add_right_comm ..
  rw [referenceFinding, referenceFinding, Diagnostic.indented_ofCode (by decide), Span.indented_mk,
    stop]
  rfl

variable (blank : AllIn isIndent indent)

include blank

/-- One step of the table: a line that is indented, taken into a table that was moved already. -/
theorem SymbolTable.observe_indented (grammar : Grammar) (table : SymbolTable) (number : Nat)
    (raw : List Char) :
    observe grammar (table.indented line indent.length) number
        (indentOf line indent number ++ raw) =
      (observe grammar table number raw).indented line indent.length := by
  have here := allIn_indentOf line blank number
  have nesting : (table.indented line indent.length).nesting = table.nesting := rfl
  rw [observe_eq, observe_eq, codePart_indented here, nesting, Nesting.observe_indented here]
  dsimp only
  rw [definition?_indented here, definition?_indented here, declaration?_indented here,
    length_indentOf, ← apply_declare_indented _ _ (growth line indent.length number),
    ← apply_define_indented, ← apply_define_indented]
  rfl

theorem SymbolTable.build_indented (grammar : Grammar) (lines : List (List Char)) :
    build grammar (lines.modify line (indent ++ ·)) =
      (build grammar lines).indented line indent.length := by
  rw [build, zipIdx_modify, List.foldl_map, build]
  change List.foldl _ (empty.indented line indent.length) _ = _
  apply List.foldl_hom (indented line indent.length)
  intro table numbered
  exact observe_indented blank grammar table numbered.2 numbered.1

theorem checkUsage_indented (grammar : Grammar) (number : Nat) (code : List Char) :
    checkUsage grammar number (indentOf line indent number ++ code) =
      (checkUsage grammar number code).map (Diagnostic.indented line indent.length) := by
  have here := allIn_indentOf line blank number
  rw [checkUsage, checkUsage, Instruction.of?_indented here, literals_indented here,
    Option.bind_map, Option.map_bind]
  apply Option.bind_congr
  intro instruction _
  dsimp only [Function.comp]
  rw [Option.map_bind]
  apply Option.bind_congr
  intro usage _
  dsimp only [Function.comp]
  rw [mismatches?_moved, Option.map_map]
  congr 1
  funext mismatches
  rw [Function.comp, usageFinding, usageFinding, Diagnostic.indented_ofCode (by decide),
    usageSpan_indented]

theorem checkReferences_indented (grammar : Grammar) (symbols : SymbolTable) (number : Nat)
    (code : List Char) :
    checkReferences grammar (symbols.indented line indent.length) number
        (indentOf line indent number ++ code) =
      (checkReferences grammar symbols number code).map
        (Diagnostic.indented line indent.length) := by
  have here := allIn_indentOf line blank number
  have known (name : String) : isResolved grammar (symbols.indented line indent.length) name =
      isResolved grammar symbols name := rfl
  rw [checkReferences, checkReferences, undefinedNames, undefinedNames, names_indented here,
    literals_indented here, List.filter_map, List.map_map, List.map_map]
  simp only [Function.comp_def, inside_moved, known, length_indentOf]
  apply List.map_congr_left
  intro token _
  exact referenceFinding_indented number token

theorem checkLine_indented (grammar : Grammar) (symbols : SymbolTable) (number : Nat)
    (raw : List Char) :
    checkLine grammar (symbols.indented line indent.length) number
        (indentOf line indent number ++ raw) =
      (checkLine grammar symbols number raw).map (Diagnostic.indented line indent.length) := by
  have here := allIn_indentOf line blank number
  rw [checkLine, checkLine, codePart_indented here, trim_indented here, checkUsage_indented blank,
    checkReferences_indented blank]
  split
  · rfl
  · rw [List.map_append, Option.toList_map]

theorem checkLines_indented (grammar : Grammar) (symbols : SymbolTable)
    (lines : List (List Char)) :
    checkLines grammar (symbols.indented line indent.length) (lines.modify line (indent ++ ·)) =
      (checkLines grammar symbols lines).map (Diagnostic.indented line indent.length) := by
  rw [checkLines, zipIdx_modify, List.flatMap_map, checkLines, List.map_flatMap]
  apply List.flatMap_congr
  intro numbered _
  exact checkLine_indented blank grammar symbols numbered.2 numbered.1

end Lines

section Duplicates

variable {line columns : Nat}

theorem duplicateFinding_indented (record : SymbolRecord) (site : Site) :
    duplicateFinding (record.indented line columns) (site.indented line columns) =
      (duplicateFinding record site).indented line columns := by
  have first : firstLine (record.indented line columns) (site.indented line columns) =
      firstLine record site := by
    rw [firstLine, firstLine, SymbolRecord.indented]
    cases record.definitions with
    | nil => exact Site.indented_line site
    | cons first others => exact Site.indented_line first
  obtain ⟨number, column⟩ := site
  rw [duplicateFinding, duplicateFinding, Diagnostic.indented_ofCode (by decide), first,
    Site.indented_mk, Span.indented_mk, Nat.add_right_comm]
  rfl

theorem SymbolTable.redefinitions_indented (table : SymbolTable) :
    (table.indented line columns).redefinitions =
      table.redefinitions.map
        (Prod.map (SymbolRecord.indented line columns) (Site.indented line columns)) := by
  have repeated (record : SymbolRecord) : repeats (record.indented line columns) =
      (repeats record).map
        (Prod.map (SymbolRecord.indented line columns) (Site.indented line columns)) := by
    simp only [repeats, SymbolRecord.indented, ← List.map_tail, List.map_map]
    rfl
  have found : ((table.indented line columns).labels.records ++
      (table.indented line columns).vars.records).flatMap repeats =
        ((table.labels.records ++ table.vars.records).flatMap repeats).map
          (Prod.map (SymbolRecord.indented line columns) (Site.indented line columns)) := by
    rw [List.map_flatMap]
    simp only [← repeated, indented, Registry.indented, ← List.map_append, List.flatMap_map]
  rw [redefinitions, found, redefinitions]
  symm
  apply List.map_mergeSort
  intro a _ b _
  exact (Site.upTo_indented a.2 b.2).symm

theorem checkDuplicates_indented (table : SymbolTable) :
    checkDuplicates (table.indented line columns) =
      (checkDuplicates table).map (Diagnostic.indented line columns) := by
  rw [checkDuplicates, SymbolTable.redefinitions_indented, List.map_map, checkDuplicates,
    List.map_map]
  apply List.map_congr_left
  intro found _
  exact duplicateFinding_indented found.1 found.2

theorem checkBalance_indented (nesting : Nesting) :
    (checkBalance nesting).map (Diagnostic.indented line columns) = checkBalance nesting := by
  have unmoved : ∀ issue ∈ checkBalance nesting, issue.indented line columns = issue := by
    intro issue member
    obtain ⟨code, listed, isOf⟩ := isOf_checkBalance member
    have other : code ∉ lineCodes := by
      revert listed
      cases code <;> decide
    rw [Diagnostic.indented, if_neg]
    rwa [isOf.id_mem_iff]
  rw [List.map_congr_left unmoved, List.map_id']

end Duplicates

/-- Indenting one line moves what is said about that line, and changes nothing else in the report.
-/
theorem report_of_indented_line (grammar : Grammar) (lines : List (List Char)) (line : Nat)
    {indent : List Char} (blank : AllIn isIndent indent) :
    validateLines grammar (lines.modify line (indent ++ ·)) =
      (validateLines grammar lines).indented line indent.length := by
  have nesting (table : SymbolTable) :
      (table.indented line indent.length).nesting = table.nesting := rfl
  rw [validateLines, validateLines, SymbolTable.build_indented blank, checkLines_indented blank,
    checkDuplicates_indented, nesting, Report.indented, List.map_append, List.map_append,
    checkBalance_indented]

theorem report_of_indented_repeat :
    AllIn isIndent " \t".toList ∧
      validateLines z80Grammar ["a:".toList, " \ta: JP b".toList, "\x7b".toList] =
        (validateLines z80Grammar
          ["a:".toList, "a: JP b".toList, "\x7b".toList]).indented 1 2 := by
  have blank : AllIn isIndent " \t".toList := by decide
  have moved : ["a:".toList, "a: JP b".toList, "\x7b".toList].modify 1 (" \t".toList ++ ·) =
      ["a:".toList, " \ta: JP b".toList, "\x7b".toList] := rfl
  have report := report_of_indented_line z80Grammar
    ["a:".toList, "a: JP b".toList, "\x7b".toList] 1 blank
  rw [moved] at report
  exact ⟨blank, report⟩

end AsmLint
