import AsmLint.Proofs.ByteRules
import AsmLint.Proofs.Positions

/-! The report of a document, made by byte offsets. Symbols are recorded by position, what the
checks look at is cut out of the lines, and each finding turns offsets into columns and columns into
a span; every such step is checked and a failed check is a fault. The checked report is never a
fault, and it is the report: all offsets are boundaries, all positions lie in their table and all
spans start before they stop. A document with as many macro starts as a machine word has values is
the one exception, since the depth is counted in such a word. -/

namespace AsmLint

def Registry.InRange (registry : Registry) : Prop :=
  ∀ name position, registry.positions.get? name = some position →
    position < registry.records.length

theorem Registry.Coherent.inRange {registry : Registry} {kind : SymbolKind}
    (coherent : registry.Coherent kind) : registry.InRange := by
  intro name position place
  obtain ⟨record, here, -⟩ := (coherent.indexed name position).1 place
  exact (List.getElem?_eq_some_iff.1 here).1

namespace Bytes

section Symbols

def define (table : SymbolTable) (kind : SymbolKind) (line : Nat) (token : Token) :
    Except Fault SymbolTable :=
  let registry := table.registry kind
  match registry.positions.get? token.name with
  | some position =>
    if position < registry.records.length then .ok (table.define kind line token)
    else .error (.position position)
  | none => .ok (table.define kind line token)

def applyRange (code : List Char) (change : SymbolTable → Token → Except Fault SymbolTable)
    (table : SymbolTable) : Option Extent → Except Fault SymbolTable
  | some range =>
    if insideAny (literals (view code)) range.start range.length then .ok table
    else do
      let token ← readToken code range
      change table token
  | none => .ok table

def observeLine (grammar : Grammar) (table : SymbolTable) (line : Nat) (raw : List Char) :
    Except Fault SymbolTable := do
  let code ← codePart raw
  let nesting ← observe table.nesting code
  let label := (labelDefinition? (view code)).map Token.range
  let labelled ← applyRange code (define · .label line ·) { table with nesting } label
  let assigned ← variableRange? (decide (0 < nesting.braceDepth)) code
  let defined ← applyRange code (define · .var line ·) labelled assigned
  let declared ← declarationRange? grammar.isDeclarationKeyword code
  applyRange code (fun table token => .ok (table.declare token)) defined declared

def build (grammar : Grammar) (lines : List (List Char)) : Except Fault SymbolTable :=
  lines.zipIdx.foldlM (fun table entry => observeLine grammar table entry.2 entry.1) .empty

theorem applyRange_eq {code : List Char} {found : Option Token} {table : SymbolTable}
    {change : SymbolTable → Token → Except Fault SymbolTable}
    {result : SymbolTable → Token → SymbolTable}
    (inFront : ∀ token, found = some token → InFront code token)
    (changes : ∀ token, change table token = .ok (result table token)) :
    applyRange code change table (found.map Token.range) =
      .ok (SymbolTable.apply result table (SymbolTable.outside (literals code) found)) := by
  cases found with
  | none => rfl
  | some token =>
    have front := inFront token rfl
    rw [Option.map_some, applyRange, front.inside_eq, front.readToken_eq, ok_bind, changes,
      SymbolTable.outside, Option.filter_some]
    cases token.inside (literals code) <;> rfl

theorem define_eq {table : SymbolTable} {kind : SymbolKind}
    (coherent : (table.registry kind).Coherent kind) (line : Nat) (token : Token) :
    define table kind line token = .ok (table.define kind line token) := by
  rw [define]
  cases place : (table.registry kind).positions.get? token.name with
  | none => rfl
  | some position => exact if_pos (coherent.inRange token.name position place)

theorem applyRange_define_eq {code : List Char} {found : Option Token} {table : SymbolTable}
    {kind : SymbolKind} (coherent : (table.registry kind).Coherent kind)
    (inFront : ∀ token, found = some token → InFront code token) (line : Nat) :
    applyRange code (define · kind line ·) table (found.map Token.range) =
      .ok (SymbolTable.apply (SymbolTable.define · kind line ·) table
        (SymbolTable.outside (literals code) found)) :=
  applyRange_eq inFront (define_eq coherent line)

theorem macroStarts_append (lines : List (List Char)) (raw : List Char) :
    macroStarts (lines ++ [raw]) = macroStarts lines + macroStarts [raw] := List.countP_append

theorem observeLine_eq {grammar : Grammar} {table : SymbolTable} {lines : List (List Char)}
    {raw : List Char} (describes : table.Describes grammar lines)
    (few : macroStarts (lines ++ [raw]) < UInt32.size) (line : Nat) :
    observeLine grammar table line raw = .ok (table.observe grammar line raw) := by
  have bound : Nesting.opensMacro (AsmLint.codePart raw) = true →
      table.nesting.macroDepth + 1 < UInt32.size := by
    intro opens
    have depth := Nesting.after_macroDepth_le lines
    have starts : macroStarts [raw] = 1 := by
      rw [macroStarts, List.countP_singleton, decide_ledBy]
      exact if_pos opens
    rw [macroStarts_append, starts] at few
    rw [describes.nesting]
    omega
  have kinds : SymbolKind.label ≠ .var := by decide
  rw [observeLine, codePart_eq, ok_bind, observe_eq bound, ok_bind, labelDefinition?_view,
    SymbolTable.observe]
  generalize AsmLint.codePart raw = code
  dsimp only
  generalize decide (0 < (table.nesting.observe code).braceDepth) = inBlock
  have labels (token : Token) (found : labelDefinition? code = some token) :
      InFront code token := by
    obtain ⟨rest, gap, tail, leads, -⟩ := labelDefinition?_iff.1 found
    exact inFront_of_leadsWith leads
  have vars (token : Token) (found : variableDefinition? inBlock code = some token) :
      InFront code token := by
    obtain ⟨rest, gap, tail, leads, -⟩ := variableDefinition?_iff.1 found
    exact inFront_of_leadsWith leads
  have declared (token : Token)
      (found : declaration? grammar.isDeclarationKeyword code = some token) : InFront code token :=
    inFront_of_declares (declaration?_iff.1 found)
  generalize started : ({ table with nesting := table.nesting.observe code } : SymbolTable) = start
  have coherent (kind : SymbolKind) : (start.registry kind).Coherent kind := by
    have registry := describes.coherent.registries kind
    rw [← started]
    cases kind with
    | label => exact registry
    | var => exact registry
  rw [applyRange_define_eq (coherent .label) labels, ok_bind, variableRange?_eq, ok_bind,
    applyRange_define_eq _ vars, ok_bind, declarationRange?_eq, ok_bind,
    applyRange_eq declared fun _ => rfl]
  rw [SymbolTable.apply_define_registry_of_ne _ _ _ kinds]
  exact coherent .var

theorem build_eq (grammar : Grammar) {lines : List (List Char)}
    (few : macroStarts lines < UInt32.size) :
    build grammar lines = .ok (SymbolTable.build grammar lines) := by
  -- From the right, so that the table before a line is known to describe the lines before it.
  induction lines using List.reverseRecOn with
  | nil => rfl
  | append_singleton lines raw ih =>
    have earlier : macroStarts lines < UInt32.size := by
      rw [macroStarts_append] at few
      omega
    have numbered : (lines ++ [raw]).zipIdx = lines.zipIdx ++ [(raw, lines.length)] := by
      simp [List.zipIdx_append]
    have whole := ih earlier
    rw [build] at whole
    rw [build, numbered, List.foldlM_append, whole, ok_bind, List.foldlM_cons,
      observeLine_eq (SymbolTable.describes_build grammar lines) few, SymbolTable.build_append]
    rfl

end Symbols

def makeSpan (line start stop : Nat) : Except Fault Span :=
  match Span.make line start stop with
  | .ok span => .ok span
  | .error error => .error (.reversed error)

theorem makeSpan_eq_ok_iff {line start stop : Nat} {span : Span} :
    makeSpan line start stop = .ok span ↔ start ≤ stop ∧ span = ⟨line, start, stop⟩ := by
  rw [makeSpan, Span.make]
  by_cases reversed : stop < start
  · simp [reversed]
  · simp [reversed, Nat.not_lt.1 reversed, eq_comm]

theorem makeSpan_eq {start stop : Nat} (ordered : start ≤ stop) (line : Nat) :
    makeSpan line start stop = .ok ⟨line, start, stop⟩ := by
  rw [makeSpan, Span.make, if_neg (Nat.not_lt.2 ordered)]

section Usage

/-- The operands a rule is given. The pieces are cut out only if the rule looks at them. -/
def operandsFor (policy : OperandPolicy) (pieces : Except Fault (List (List Char)))
    (operandText : List Char) (rule : Rule) : Except Fault (List (List Char)) :=
  if policy.wholeOperand && rule.freeForm then
    .ok (if operandText.isEmpty then [] else [operandText])
  else pieces

def mismatch? (policy : OperandPolicy) (pieces : Except Fault (List (List Char)))
    (mnemonic operandText : List Char) (rule : Rule) : Except Fault (Option Mismatch) :=
  if !headMatches rule mnemonic then .ok (some (.mnemonic rule.head rule.text))
  else if rule.slots.isEmpty then
    .ok (if operandText.isEmpty then none else some (.operandsGiven rule.text))
  else do
    let operands ← operandsFor policy pieces operandText rule
    if operands.length != rule.slots.length then
      .ok (some (.operandCount rule.slots.length operands.length rule.text))
    else
      .ok ((refusedOperand? rule.slots operands).map fun operand => .refused operand rule.text)

def ruleMismatch? (policy : OperandPolicy) (pieces : Except Fault (List (List Char)))
    (mnemonic operandText : List Char) : Except RuleError Rule → Except Fault (Option Mismatch)
  | .ok rule => mismatch? policy pieces mnemonic operandText rule
  | .error error => .ok (some (.invalidRule error))

def mismatches? (tried : Except RuleError Rule → Except Fault (Option Mismatch)) :
    List (Except RuleError Rule) → Except Fault (Option (List Mismatch))
  | [] => .ok (some [])
  | rule :: rules => do
    match ← tried rule with
    | none => .ok none
    | some mismatch => do
      let others ← mismatches? tried rules
      .ok (others.map (mismatch :: ·))

def usageSpan (line : Nat) (code : List Char) (found : Instruction) (operandText : List Char) :
    Except Fault Span := do
  if operandText.isEmpty then do
    let start ← column code found.column
    let stop ← column code found.stop
    makeSpan line start stop
  else do
    let start ← column code found.operandColumn
    let stop ← column code (utf8Length code)
    makeSpan line start stop

def checkUsage (grammar : Grammar) (line : Nat) (code : List Char) :
    Except Fault (Option Diagnostic) :=
  match Instruction.of? (view code) with
  | none => .ok none
  | some found => do
    let written ← cut code ⟨found.column, found.stop⟩
    match grammar.lookup (String.ofList written) with
    | none => .ok none
    | some usage => do
      let rest ← cut code ⟨found.stop, utf8Length code⟩
      let pieces := operands code (literals (view code)) found.stop
      let tried := ruleMismatch? grammar.policy pieces written (trim rest)
      match ← mismatches? tried usage.rules with
      | none => .ok none
      | some mismatches => do
        let span ← usageSpan line code found (trim rest)
        let wording := if usage.rules.length = 1 then .single else .multiple
        .ok (some (.ofCode .invalidUsage wording span [
          ("mnemonic", usage.mnemonic),
          ("reason", (mismatches.head?.map Mismatch.reason).getD ""),
          ("variants", String.intercalate " | " usage.variantTexts)]))

variable {code : List Char} {instruction : Instruction}

theorem mismatch?_eq {pieces : Except Fault (List (List Char))} {quoted : List Extent}
    (pieced : pieces = .ok (AsmLint.operands quoted instruction)) (policy : OperandPolicy)
    (rule : Rule) :
    mismatch? policy pieces instruction.mnemonic instruction.operandText rule =
      .ok (AsmLint.mismatch? policy quoted instruction rule) := by
  have given : operandsFor policy pieces instruction.operandText rule =
      .ok (AsmLint.operandsFor policy quoted instruction rule) := by
    rw [operandsFor, AsmLint.operandsFor, pieced]
    split <;> rfl
  rw [mismatch?, AsmLint.mismatch?, given, ok_bind]
  split
  · rfl
  · split
    · rfl
    · dsimp only
      split <;> rfl

theorem ruleMismatch?_eq {pieces : Except Fault (List (List Char))} {quoted : List Extent}
    (pieced : pieces = .ok (AsmLint.operands quoted instruction)) (policy : OperandPolicy)
    (rule : Except RuleError Rule) :
    ruleMismatch? policy pieces instruction.mnemonic instruction.operandText rule =
      .ok (AsmLint.ruleMismatch? policy quoted instruction rule) := by
  cases rule with
  | error error => rfl
  | ok rule => exact mismatch?_eq pieced policy rule

theorem mismatches?_eq {tried : Except RuleError Rule → Except Fault (Option Mismatch)}
    {result : Except RuleError Rule → Option Mismatch}
    (ok : ∀ rule, tried rule = .ok (result rule)) (rules : List (Except RuleError Rule)) :
    mismatches? tried rules = .ok (rules.mapM result) := by
  induction rules with
  | nil => rfl
  | cons rule rules ih =>
    rw [mismatches?, ok, ok_bind, List.mapM_cons]
    cases result rule with
    | none => rfl
    | some mismatch =>
      dsimp only
      rw [ih, ok_bind]
      cases rules.mapM result <;> rfl

theorem usageSpan_eq (found : Instruction.of? code = some instruction) (line : Nat) :
    usageSpan line code instruction.bytes instruction.operandText =
      .ok (AsmLint.usageSpan line code instruction) := by
  obtain ⟨front, split, start, single, mnemonic⟩ := exists_front_of_instruction found
  have gap := longestRun_takeWhile isBlank instruction.rest
  have word : code = front ++ instruction.mnemonic ++ instruction.rest := by
    rw [split, List.append_assoc]
  have blanks : code = front ++ instruction.mnemonic ++ instruction.rest.takeWhile isBlank ++
      instruction.rest.dropWhile isBlank := by
    rw [List.append_assoc, ← gap.split, word]
  have singles := allIn_append.2 ⟨single, mnemonic⟩
  have first := column_of_single split single
  have last := column_of_single word singles
  have operand := column_of_single blanks
    (allIn_append.2 ⟨singles, isAscii_isBlank.allIn gap.inside⟩)
  have ends : column code (utf8Length code) = .ok code.length :=
    column_of_append (List.append_nil code).symm rfl
  have stop : (front ++ instruction.mnemonic).length = instruction.stop := by
    rw [List.length_append, start]
    rfl
  have place : (front ++ instruction.mnemonic ++ instruction.rest.takeWhile isBlank).length =
      instruction.operandColumn := by
    rw [List.length_append, stop]
    rfl
  have bytes : instruction.bytes.operandColumn = instruction.operandColumn :=
    congrArg (instruction.stop + List.length ·) (takeWhile_view isAscii_isBlank instruction.rest)
  rw [start] at first
  rw [stop] at last
  rw [place] at operand
  rw [usageSpan, AsmLint.usageSpan, bytes, operand, ends]
  split
  · have ordered : instruction.column ≤ instruction.stop := Nat.le_add_right _ _
    have starts : instruction.bytes.column = instruction.column := rfl
    have stops : instruction.bytes.stop = instruction.stop := rfl
    rw [starts, stops, first, ok_bind, last, ok_bind, makeSpan_eq ordered]
  · have bound : instruction.operandColumn ≤ code.length := by
      rw [← place]
      have length := congrArg List.length blanks
      rw [List.length_append] at length
      omega
    rw [ok_bind, ok_bind, makeSpan_eq bound]

theorem checkUsage_eq (grammar : Grammar) (line : Nat) (code : List Char) :
    checkUsage grammar line code = .ok (AsmLint.checkUsage grammar line code) := by
  rw [checkUsage, AsmLint.checkUsage, instruction_of?_view]
  cases found : Instruction.of? code with
  | none => rfl
  | some instruction =>
    obtain ⟨front, split, start, single, mnemonic⟩ := exists_front_of_instruction found
    have inFront : InFront code ⟨instruction.mnemonic, instruction.column⟩ :=
      ⟨front, instruction.rest, split, start, single, mnemonic⟩
    have written : cut code ⟨instruction.bytes.column, instruction.bytes.stop⟩ =
        .ok instruction.mnemonic := inFront.cut_eq
    have rest : cut code ⟨instruction.bytes.stop, utf8Length code⟩ = .ok instruction.rest := by
      have word : code = front ++ instruction.mnemonic ++ instruction.rest := by
        rw [split, List.append_assoc]
      have tail := cut_rest word
      rw [utf8Length_of_ascii isAscii_isSingle (allIn_append.2 ⟨single, mnemonic⟩),
        List.length_append, start] at tail
      exact tail
    have name : String.ofList instruction.mnemonic = instruction.name := rfl
    have text : trim instruction.rest = instruction.operandText := rfl
    have stop : instruction.bytes.stop = instruction.stop := rfl
    dsimp only [Option.map_some, Option.bind_some]
    rw [written, ok_bind, name, rest, stop]
    cases grammar.lookup instruction.name with
    | none => rfl
    | some usage =>
      have tried := mismatches?_eq (ruleMismatch?_eq (operands_eq found) grammar.policy) usage.rules
      dsimp only [Option.bind_some]
      rw [ok_bind, text, tried, ok_bind, Usage.mismatches?]
      cases usage.rules.mapM (AsmLint.ruleMismatch? grammar.policy (literals code) instruction) with
      | none => rfl
      | some mismatches =>
        dsimp only [Option.map_some]
        rw [usageSpan_eq found line, ok_bind]
        rfl

end Usage

section References

def referenceFinding (line : Nat) (code : List Char) (piece : Piece) : Except Fault Diagnostic := do
  let start ← column code piece.range.start
  let stop ← column code piece.range.stop
  let span ← makeSpan line start stop
  .ok (.ofCode .undefinedSymbol .standard span [("name", String.ofList piece.text)])

def checkReferences (grammar : Grammar) (symbols : SymbolTable) (line : Nat) (code : List Char) :
    Except Fault (List Diagnostic) := do
  let found ← names code
  let undefined := found.filter fun piece =>
    !insideAny (literals (view code)) piece.range.start piece.range.length &&
      !isResolved grammar symbols (String.ofList piece.text)
  undefined.mapM (referenceFinding line code)

variable {code : List Char} {token : Token}

theorem inside_piece (name : IsName code token) :
    insideAny (literals (view code)) (token.piece code).range.start
        (token.piece code).range.length = token.inside (literals code) := by
  obtain ⟨before, after, split, start, -⟩ := name
  have inside := insideAny_view before token.text after
  rw [← List.append_assoc, ← split, start] at inside
  rw [Token.piece_of_append split start, Extent.length, utf8Length_append, Nat.add_sub_cancel_left]
  exact inside

theorem referenceFinding_eq (name : IsName code token) (line : Nat) :
    referenceFinding line code (token.piece code) = .ok (AsmLint.referenceFinding line token) := by
  obtain ⟨before, after, split, start, -⟩ := name
  have first := column_of_append (split.trans (List.append_assoc _ _ _)) rfl
  have last := column_of_append split rfl
  have stop : (before ++ token.text).length = token.stop := by
    rw [List.length_append, start]
    rfl
  have ordered : token.start ≤ token.stop := Nat.le_add_right _ _
  rw [referenceFinding, Token.piece_of_append split start, first, ok_bind, last, ok_bind, start,
    stop, makeSpan_eq ordered, ok_bind]
  rfl

theorem checkReferences_eq (grammar : Grammar) (symbols : SymbolTable) (line : Nat)
    (code : List Char) :
    checkReferences grammar symbols line code =
      .ok (AsmLint.checkReferences grammar symbols line code) := by
  have undefined : ((AsmLint.names code).map (Token.piece code)).filter (fun piece =>
      !insideAny (literals (view code)) piece.range.start piece.range.length &&
        !isResolved grammar symbols (String.ofList piece.text)) =
      (undefinedNames grammar symbols code).map (Token.piece code) := by
    rw [undefinedNames, List.filter_map]
    congr 1
    apply List.filter_congr
    intro token member
    exact congrArg (!· && _) (inside_piece (mem_names_iff.1 member))
  rw [checkReferences, AsmLint.checkReferences, names_eq, ok_bind]
  dsimp only
  rw [undefined, List.mapM_map]
  apply mapM_ok
  intro token member
  exact referenceFinding_eq (mem_names_iff.1 (List.mem_of_mem_filter member)) line

end References

def checkDuplicates (symbols : SymbolTable) : Except Fault (List Diagnostic) :=
  symbols.redefinitions.mapM fun entry => do
    let stop := entry.2.column + entry.1.name.length
    let span ← makeSpan entry.2.line entry.2.column stop
    .ok { duplicateFinding entry.1 entry.2 with span := some span }

def checkBalance (nesting : Nesting) : Except Fault (List Diagnostic) := do
  let start ← makeSpan 0 0 1
  .ok ((AsmLint.checkBalance nesting).map fun finding => { finding with span := some start })

def checkLine (grammar : Grammar) (symbols : SymbolTable) (line : Nat) (raw : List Char) :
    Except Fault (List Diagnostic) := do
  let code ← codePart raw
  if (trim code).isEmpty then .ok []
  else do
    let usage ← checkUsage grammar line code
    let references ← checkReferences grammar symbols line code
    .ok (usage.toList ++ references)

def validateLines (grammar : Grammar) (lines : List (List Char)) : Except Fault Report := do
  let symbols ← build grammar lines
  let found ← lines.zipIdx.mapM fun entry => checkLine grammar symbols entry.2 entry.1
  let repeats ← checkDuplicates symbols
  let balance ← checkBalance symbols.nesting
  .ok ⟨found.flatten ++ repeats ++ balance, symbols⟩

theorem checkDuplicates_eq (symbols : SymbolTable) :
    checkDuplicates symbols = .ok (AsmLint.checkDuplicates symbols) := by
  rw [checkDuplicates, AsmLint.checkDuplicates]
  apply mapM_ok
  intro entry _
  dsimp only
  rw [makeSpan_eq (Nat.le_add_right _ _), ok_bind]
  rfl

theorem checkBalance_eq (nesting : Nesting) :
    checkBalance nesting = .ok (AsmLint.checkBalance nesting) := by
  have start : makeSpan 0 0 1 = .ok documentStart := rfl
  have kept : ∀ finding ∈ AsmLint.checkBalance nesting,
      { finding with span := some documentStart } = id finding := by
    intro finding member
    rw [← span_checkBalance member]
    rfl
  rw [checkBalance, start, ok_bind, List.map_congr_left kept, List.map_id]

theorem checkLine_eq (grammar : Grammar) (symbols : SymbolTable) (line : Nat) (raw : List Char) :
    checkLine grammar symbols line raw = .ok (AsmLint.checkLine grammar symbols line raw) := by
  rw [checkLine, AsmLint.checkLine, codePart_eq, ok_bind, checkUsage_eq, ok_bind,
    checkReferences_eq, ok_bind]
  split <;> rfl

theorem validateLines_eq (grammar : Grammar) {lines : List (List Char)}
    (few : macroStarts lines < UInt32.size) :
    validateLines grammar lines = .ok (AsmLint.validateLines grammar lines) := by
  have found (symbols : SymbolTable) :
      lines.zipIdx.mapM (fun entry => checkLine grammar symbols entry.2 entry.1) =
        .ok (lines.zipIdx.map fun entry => AsmLint.checkLine grammar symbols entry.2 entry.1) :=
    mapM_ok fun entry _ => checkLine_eq grammar symbols entry.2 entry.1
  rw [validateLines, build_eq grammar few, ok_bind, found, ok_bind, checkDuplicates_eq, ok_bind,
    checkBalance_eq, ok_bind]
  rfl

def lint (table : RuleTable) (policy : OperandPolicy) (lines : List (List Char)) :
    Except Fault Report := do
  let grammar ← compileTable table policy
  validateLines grammar lines

/-- No rule text, rule table, policy or document makes a step fail. A text is cut only between
boundaries, a column is asked for only at a boundary and counts the characters before it, a span
never stops before it starts, and positions of records lie in their table. -/
theorem no_input_faults (table : RuleTable) (policy : OperandPolicy) (lines : List (List Char))
    (few : macroStarts lines < UInt32.size) :
    (∀ legend text, compileRule legend policy text = .ok (Rule.compile legend policy text)) ∧
    lint table policy lines = .ok (AsmLint.validateLines (.ofTable table policy) lines) ∧
    (∀ code, ReadOnBoundaries code) ∧
    (∀ text range inner, cut text range = .ok inner ↔
      ∃ before after, text = before ++ (inner ++ after) ∧ range.start = utf8Length before ∧
        range.stop = utf8Length before + utf8Length inner) ∧
    (∀ text byte place, column text byte = .ok place ↔
      ∃ before after, text = before ++ after ∧ byte = utf8Length before ∧
        place = before.length) ∧
    (∀ before after, columnOfByte (before ++ after) (utf8Length before) = before.length) ∧
    (∀ line start stop span, makeSpan line start stop = .ok span ↔
      start ≤ stop ∧ span = ⟨line, start, stop⟩) ∧
    ∀ kind, ((SymbolTable.build (.ofTable table policy) lines).registry kind).InRange := by
  refine ⟨fun legend => compileRule_eq legend policy, ?_, readOnBoundaries,
    fun _ _ _ => cut_eq_ok_iff, fun _ _ _ => column_eq_ok_iff, ?_,
    fun _ _ _ _ => makeSpan_eq_ok_iff, ?_⟩
  · rw [lint, compileTable_eq, ok_bind, validateLines_eq _ few]
  · intro before after
    rw [columnOfByte, columnAt?_append, Option.getD_some]
  · intro kind
    exact ((SymbolTable.describes_build _ lines).coherent.registries kind).inRange

/-- The byte after a backslash is the first of two that make up one character. -/
theorem escaped_wide_character_without_fault :
    macroStarts ["MACRO \u00e9".toList, "a: DB '\\\u00e9', b".toList] < UInt32.size ∧
    literals (view "a: DB '\\\u00e9', b".toList) = [⟨6, 11⟩] ∧
    IsBoundary "a: DB '\\\u00e9', b".toList 11 ∧
    lint Z80.table Dialect.z80.policy ["MACRO \u00e9".toList, "a: DB '\\\u00e9', b".toList] =
      .ok (AsmLint.validateLines z80Grammar
        ["MACRO \u00e9".toList, "a: DB '\\\u00e9', b".toList]) := by
  have few : macroStarts ["MACRO \u00e9".toList, "a: DB '\\\u00e9', b".toList] < UInt32.size := by
    decide
  have quoted : literals (view "a: DB '\\\u00e9', b".toList) = [⟨6, 11⟩] := by decide +kernel
  obtain ⟨-, report, boundaries, -⟩ := no_input_faults Z80.table Dialect.z80.policy _ few
  have member : ⟨6, 11⟩ ∈ literals (view "a: DB '\\\u00e9', b".toList) := by
    rw [quoted]
    exact List.mem_singleton_self _
  obtain ⟨-, -, stop⟩ := (boundaries _).literal _ member
  exact ⟨few, quoted, stop, report⟩

end Bytes

end AsmLint
