import AsmLint.Proofs.References
import AsmLint.Proofs.RuleInstances
import AsmLint.Proofs.TableInvariant

/-! Names that are not reported as undefined. The check of usage and the symbol table cut words out
of a line in ways of their own; here what they cut out is shown to be one of the names that the
check of references looks at. A mnemonic that is looked up and fits a rule, a register that a rule
takes, and a label or variable where it is defined are never reported. A declared name is reported
where it is declared only if it is written with dots at its end, which the table drops. -/

namespace AsmLint

section Findings

def ReportedAt (grammar : Grammar) (lines : List (List Char)) (line : Nat) (token : Token) : Prop :=
  ∃ finding ∈ findingsOf .undefinedSymbol (validateLines grammar lines).issues,
    finding.span = some ⟨line, token.start, token.stop⟩

structure Unreported (grammar : Grammar) (lines : List (List Char)) (line : Nat) (token : Token) :
    Prop where
  place : ¬ ReportedAt grammar lines line token
  name : ∀ finding ∈ findingsOf .undefinedSymbol (validateLines grammar lines).issues,
    finding.value? "name" ≠ some token.name

theorem IsName.eq_of_start {code : List Char} {token other : Token} (name : IsName code token)
    (otherName : IsName code other) (start : token.start = other.start) : token = other := by
  obtain ⟨before, after, split, length, between⟩ := name
  obtain ⟨front, back, splitOther, lengthOther, betweenOther⟩ := otherName
  have whole := split.symm.trans splitOther
  rw [List.append_assoc, List.append_assoc] at whole
  obtain ⟨-, rest⟩ := List.append_inj whole (by omega)
  have run : LongestRun isNameChar (token.text ++ after) token.text after :=
    ⟨rfl, between.inside, between.ends⟩
  have runOther : LongestRun isNameChar (token.text ++ after) other.text back :=
    ⟨rest, betweenOther.inside, betweenOther.ends⟩
  have text : token.text = other.text := run.takeWhile_eq.symm.trans runOther.takeWhile_eq
  cases token
  cases other
  simp_all

variable {table : RuleTable} {policy : OperandPolicy} {lines : List (List Char)} {line : Nat}
  {raw : List Char} {token : Token}

theorem mem_findings_iff {finding : Diagnostic} :
    finding ∈ findingsOf .undefinedSymbol (validateLines (.ofTable table policy) lines).issues ↔
      ∃ line token, UndefinedAt table lines line token ∧ finding = referenceFinding line token := by
  rw [findingsOf_checkLines, List.mem_map]
  refine ⟨fun listed => ?_, fun undefined => ?_⟩
  · obtain ⟨⟨line, token⟩, member, rfl⟩ := listed
    exact ⟨line, token, mem_undefinedPlaces_iff.1 member, rfl⟩
  · obtain ⟨line, token, undefined, rfl⟩ := undefined
    exact ⟨(line, token), mem_undefinedPlaces_iff.2 undefined, rfl⟩

theorem value?_referenceFinding (line : Nat) (token : Token) :
    (referenceFinding line token).value? "name" = some token.name :=
  Diagnostic.value?_ofCode ..

theorem ReportedAt.not_resolved (reported : ReportedAt (.ofTable table policy) lines line token)
    (here : lines[line]? = some raw) (name : IsName (codePart raw) token) :
    ¬ Resolved table lines token.name := by
  obtain ⟨finding, member, span⟩ := reported
  obtain ⟨place, other, ⟨raw', there, otherName, -, unresolved⟩, rfl⟩ := mem_findings_iff.1 member
  obtain ⟨rfl, start, -⟩ := Span.mk.inj (Option.some.inj span)
  obtain rfl := Option.some.inj (here.symm.trans there)
  obtain rfl := otherName.eq_of_start name start
  exact unresolved

theorem reportedAt_iff (here : lines[line]? = some raw) (name : IsName (codePart raw) token)
    (outside : ¬ InLiteral (codePart raw) token.start token.stop) :
    ReportedAt (.ofTable table policy) lines line token ↔ ¬ Resolved table lines token.name := by
  refine ⟨fun reported => reported.not_resolved here name, fun unresolved => ?_⟩
  exact ⟨_, mem_findings_iff.2 ⟨line, token, ⟨raw, here, name, outside, unresolved⟩, rfl⟩, rfl⟩

theorem unreported_of_resolved (here : lines[line]? = some raw)
    (name : IsName (codePart raw) token) (resolved : Resolved table lines token.name) :
    Unreported (.ofTable table policy) lines line token where
  place reported := reported.not_resolved here name resolved
  name finding member named := by
    obtain ⟨place, other, ⟨_, -, -, -, unresolved⟩, rfl⟩ := mem_findings_iff.1 member
    rw [value?_referenceFinding, Option.some.injEq] at named
    exact unresolved (named ▸ resolved)

end Findings

section Mnemonics

theorem isDigit_of_isNameStart {c : Char} (start : isNameStart c = true) : c.isDigit = false := by
  rw [Bool.eq_false_iff]
  intro digit
  unfold isNameStart at start
  delta Char.isAlpha Char.isUpper Char.isLower at start
  simp only [Char.isDigit, Bool.or_eq_true, Bool.and_eq_true, decide_eq_true_iff, beq_iff_eq,
    ge_iff_le, UInt32.le_iff_toNat_le, Char.ext_iff, ← UInt32.toNat_inj, UInt32.reduceToNat,
    Char.reduceVal] at start digit
  omega

theorem StatementAt.isFront {code before text : List Char} (place : StatementAt code before text) :
    IsFront before := by
  obtain ⟨whole, start, blanks, label | ⟨rfl, -⟩, run⟩ := place
  · obtain ⟨token, rest, gap, leads, colon⟩ := label
    obtain ⟨c, first, nameStart⟩ := leads.starts
    obtain ⟨indent, lead, indented, -, name, -⟩ := leads
    obtain ⟨tail, spelled⟩ := List.head?_eq_some_iff.1 first
    have inside := name.inside
    rw [spelled, allIn_cons] at inside
    have front : before = indent ++ (c :: tail ++ (gap ++ ':' :: blanks)) := by
      apply List.append_cancel_right_eq _ _ _ |>.mp
      rw [← whole, indented.split, name.split, colon.split, run.split, spelled]
      simp
    rw [front]
    exact .label indented.inside nameStart inside.2 colon.inside run.inside
  · have front : before = blanks := List.append_cancel_right (whole.symm.trans run.split)
    rw [front]
    exact .blanks run.inside

theorem IsFront.last {front : List Char} (isFront : IsFront front) {c : Char}
    (last : c ∈ front.getLast?) : isBlank c = true ∨ c = ':' := by
  cases isFront with
  | blanks indent => exact .inl (indent c (List.mem_of_getLast? last))
  | @label indent d name gap blanks indented start inside gapBlanks blanksBlank =>
    have shape : indent ++ (d :: name ++ (gap ++ ':' :: blanks)) =
        (indent ++ (d :: name ++ gap)) ++ ':' :: blanks := by simp
    rw [shape, List.getLast?_append_of_ne_nil _ (by simp)] at last
    rcases List.mem_cons.1 (List.mem_of_getLast? last) with colon | blank
    · exact .inr colon
    · exact .inl (blanksBlank c blank)

theorem IsFront.endsOutside {front : List Char} (isFront : IsFront front) {inClass : Char → Bool}
    (blanks : [' ', '\t', '\n', '\x0c', '\r'].any inClass = false)
    (colon : inClass ':' = false) : EndsOutside inClass front := by
  intro c last
  rcases isFront.last last with blank | rfl
  · exact outside_of_isBlank blanks blank
  · exact colon

/-- A run of name characters that starts like a name is one, wherever it cannot be the end of a
longer run or of a number after a dollar sign. -/
theorem nameBetween_of_starts {before text after : List Char}
    (starts : ∃ c ∈ text.head?, isNameStart c = true) (inside : AllIn isNameChar text)
    (ends : StartsOutside isNameChar after) (begins : EndsOutside isNameChar before)
    (noDollar : EndsOutside (· == '$') before) : NameBetween before text after where
  nonempty := by
    obtain ⟨c, first, -⟩ := starts
    exact List.ne_nil_of_mem (List.mem_of_mem_head? first)
  inside
  begins
  ends
  notNumber := by
    obtain ⟨c, first, start⟩ := starts
    intro d firstAgain
    obtain rfl : c = d := Option.some.inj (first.symm.trans firstAgain)
    exact isDigit_of_isNameStart start
  notHexadecimal dollar := by
    have refused := noDollar '$' dollar
    simp at refused

def Instruction.token (instruction : Instruction) : Token :=
  ⟨instruction.mnemonic, instruction.column⟩

theorem InstructionAt.isName {code : List Char} {instruction : Instruction}
    (place : InstructionAt code instruction) : IsName code instruction.token := by
  obtain ⟨before, text, statement, column, run, mnemonic⟩ := place
  have front := statement.isFront
  obtain ⟨c, rest, spelled, start, -⟩ := mnemonic.exists_cons
  refine ⟨before, instruction.rest, ?_, column, ?_⟩
  · rw [statement.1, run.split, List.append_assoc]
    rfl
  · refine nameBetween_of_starts ⟨c, ?_, start⟩ mnemonic.allIn run.stops
      (front.endsOutside (by decide) (by decide)) (front.endsOutside (by decide) (by decide))
    rw [Instruction.token, spelled]
    rfl

/-- No quote stands before the operands, so all literals start after the mnemonic. -/
theorem InstructionAt.stop_le_start {code : List Char} {instruction : Instruction}
    (place : InstructionAt code instruction) {literal : Extent} (member : literal ∈ literals code) :
    instruction.stop ≤ literal.start := by
  obtain ⟨before, text, statement, column, run, mnemonic⟩ := place
  have plain : AllIn isPlain (before ++ instruction.mnemonic) :=
    allIn_append.2 ⟨statement.isFront.plain, mnemonic.allIn.plain (by decide)⟩
  have unquoted : AllIn (fun c => !isQuote c) (before ++ instruction.mnemonic) :=
    fun c inside => (Bool.and_eq_true_iff.1 (plain c inside)).2
  rw [statement.1, run.split, ← List.append_assoc] at member
  have later := length_le_start unquoted member
  rw [List.length_append, column] at later
  exact later

theorem InstructionAt.column_lt_stop {code : List Char} {instruction : Instruction}
    (place : InstructionAt code instruction) : instruction.column < instruction.stop := by
  obtain ⟨before, text, -, -, -, mnemonic⟩ := place
  have length := List.length_pos_iff.2 mnemonic.ne_nil
  rw [Instruction.stop]
  omega

theorem filter_overlapping {tokens : List Token} {token : Token}
    (apart : tokens.Pairwise fun a b => a.stop ≤ b.start) (member : token ∈ tokens)
    (nonempty : token.start < token.stop) :
    tokens.filter (fun other => other.start < token.stop ∧ token.start < other.stop) =
      [token] := by
  obtain ⟨left, right, rfl⟩ := List.append_of_mem member
  obtain ⟨-, inRight, before⟩ := List.pairwise_append.1 apart
  have after := (List.pairwise_cons.1 inRight).1
  have noneLeft : left.filter (fun other =>
      other.start < token.stop ∧ token.start < other.stop) = [] := by
    apply List.filter_eq_nil_iff.2
    intro other inLeft
    have stops := before other inLeft token List.mem_cons_self
    simp only [decide_eq_true_iff]
    omega
  have noneRight : right.filter (fun other =>
      other.start < token.stop ∧ token.start < other.stop) = [] := by
    apply List.filter_eq_nil_iff.2
    intro other inRight
    have starts := after other inRight
    simp only [decide_eq_true_iff]
    omega
  rw [List.filter_append, List.filter_cons, if_pos (by simp [nonempty]), noneLeft, noneRight,
    List.nil_append]

end Mnemonics

section Words

variable {table : RuleTable} {policy : OperandPolicy} {word : String} {usage : Usage} {rule : Rule}

theorem knows_of_lookup (found : (Grammar.ofTable table policy).lookup word = some usage)
    (noWidth : '.' ∉ word.toList) : table.Knows word := by
  have noStem : Grammar.stem? (upperName word) = none := by
    simp [Grammar.stem?, @mem_upper_iff '.' (by decide), noWidth]
  rw [Grammar.lookup_ofTable, RuleTable.entryFor?, noStem, Option.bind_none, Option.or_none,
    Option.map_eq_some_iff] at found
  obtain ⟨entry, listed, -⟩ := found
  obtain ⟨member, same⟩ := RuleTable.entryOf?_eq_some listed
  exact .key member (sameNameIgnoringCase_iff.2 same)

theorem knows_of_head (found : (Grammar.ofTable table policy).lookup word = some usage)
    (member : .ok rule ∈ usage.rules) {spelling : List Char}
    (same : sameIgnoringCase rule.head.toList spelling = true) :
    table.Knows (String.ofList spelling) := by
  obtain ⟨entry, listed, rfl⟩ := Grammar.exists_entry_of_lookup found
  obtain ⟨text, given, compiled⟩ := List.mem_map.1 member
  obtain ⟨head, rest, split, rfl⟩ := compile_eq_ok_iff.1 compiled
  refine .head listed given (by rw [split, List.head?_cons]) ?_
  rw [sameIgnoringCase_iff, String.toList_ofList, upper_upper] at same
  rw [sameIgnoringCase_iff, String.toList_ofList, same]

theorem Slot.ofKey_eq_registers_iff {key : List Char} {entry : Option LegendEntry} {name : String}
    {tokens : NameSet} :
    ofKey key entry = .registers name tokens ↔
      ∃ spellings, entry = some (.tokens spellings) ∧ String.ofList key = name ∧
        upperSet spellings = tokens := by
  rcases entry with _ | _ | _ <;> simp [ofKey]

theorem Slot.ofUnit_eq_registers {legend : Legend} {unit : List Char} {key : String}
    {tokens : NameSet} (made : ofUnit legend policy unit = .registers key tokens) :
    ∃ spellings, legend.get? key = some (.tokens spellings) ∧ tokens = upperSet spellings := by
  have shape := madeFrom_ofUnit legend policy unit
  rw [made] at shape
  obtain ⟨-, same⟩ | ⟨-, same⟩ | ⟨-, same⟩ | ⟨-, -, same⟩ | ⟨-, same⟩ := shape
  · simp at same
  · simp at same
  · obtain ⟨spellings, entry, rfl, rfl⟩ := ofKey_eq_registers_iff.1 same.symm
    exact ⟨spellings, entry, rfl⟩
  · simp at same
  · simp at same

theorem mem_legendTokens {key token : String} {spellings : List String}
    (entry : table.legend.get? key = some (.tokens spellings)) (member : token ∈ spellings) :
    token ∈ table.legendTokens := by
  obtain ⟨before, after, split, -⟩ := List.lookup_eq_some_iff.1 entry
  have listed : LegendEntry.tokens spellings ∈ table.legend.values := by
    simp [Dict.values, split]
  exact List.mem_flatMap.2 ⟨_, listed, member⟩

theorem knows_of_register (found : (Grammar.ofTable table policy).lookup word = some usage)
    (member : .ok rule ∈ usage.rules) {key : String} {tokens : NameSet}
    (slot : .registers key tokens ∈ rule.slots) {operand : List Char}
    (accepts : (Slot.registers key tokens).accepts operand = true) :
    table.Knows (String.ofList operand) := by
  obtain ⟨entry, -, rfl⟩ := Grammar.exists_entry_of_lookup found
  obtain ⟨text, -, compiled⟩ := List.mem_map.1 member
  obtain ⟨head, rest, -, rfl⟩ := compile_eq_ok_iff.1 compiled
  obtain ⟨unit, -, made⟩ := List.mem_map.1 slot
  obtain ⟨spellings, legend, rfl⟩ := Slot.ofUnit_eq_registers made
  rw [Slot.accepts, upperSet, NameSet.contains_ofList, List.mem_map] at accepts
  obtain ⟨token, listed, same⟩ := accepts
  refine .token (mem_legendTokens legend listed) (sameNameIgnoringCase_iff.2 ?_)
  rw [same, upperName, String.toList_ofList]

end Words

/-- The mnemonic of a line that is looked up is one name of the line, before all string literals.
If it has no width, or if some rule accepts the line, it is not reported as undefined, and neither
is a name that a rule accepts as a register. -/
theorem accepted_words_unreported (table : RuleTable) (policy : OperandPolicy)
    (lines : List (List Char)) (line : Nat) (raw : List Char) (instruction : Instruction)
    (usage : Usage) (here : lines[line]? = some raw)
    (cut : Instruction.of? (codePart raw) = some instruction)
    (found : (Grammar.ofTable table policy).lookup instruction.name = some usage) :
    (names (codePart raw)).filter (fun token =>
        token.start < instruction.stop ∧ instruction.column < token.stop) = [instruction.token] ∧
    (∀ literal ∈ literals (codePart raw), instruction.stop ≤ literal.start) ∧
    ('.' ∉ instruction.mnemonic ∨ (∃ rule, .ok rule ∈ usage.rules ∧
        mismatch? policy (literals (codePart raw)) instruction rule = none) →
      Unreported (.ofTable table policy) lines line instruction.token) ∧
    ∀ rule, .ok rule ∈ usage.rules →
      mismatch? policy (literals (codePart raw)) instruction rule = none →
      ∀ (position : Nat) key tokens operand,
        rule.slots[position]? = some (.registers key tokens) →
        (operandsFor policy (literals (codePart raw)) instruction rule)[position]? =
          some operand →
        ∀ token ∈ names (codePart raw), token.text = operand →
          Unreported (.ofTable table policy) lines line token := by
  have place := instruction_of?_iff.1 cut
  have accepts {rule : Rule} (member : .ok rule ∈ usage.rules) :
      mismatch? policy (literals (codePart raw)) instruction rule = none ↔
        rule.Accepts policy (codePart raw) instruction :=
    mismatch?_eq_none_iff place (Grammar.upper_head_of_lookup found member)
  refine ⟨filter_overlapping (pairwise_names _) (mem_names_iff.2 place.isName)
    place.column_lt_stop, fun literal member => place.stop_le_start member, ?_, ?_⟩
  · intro known
    apply unreported_of_resolved here place.isName
    left
    by_cases width : '.' ∈ instruction.mnemonic
    · obtain ⟨rule, member, fits⟩ := known.resolve_left (not_not_intro width)
      exact knows_of_head found member (((accepts member).1 fits).head (.inr width))
    · apply knows_of_lookup found
      rwa [Instruction.name, String.toList_ofList]
  · intro rule member fits position key tokens operand slot given token name text
    apply unreported_of_resolved here (mem_names_iff.1 name)
    left
    have listed := List.mem_of_getElem? slot
    have slotwise := ((accepts member).1 fits).operands (List.ne_nil_of_mem listed)
    rw [operandsFor_eq place] at given
    obtain ⟨inSlots, isSlot⟩ := List.getElem?_eq_some_iff.1 slot
    obtain ⟨inOperands, isOperand⟩ := List.getElem?_eq_some_iff.1 given
    have taken := slotwise.get inSlots inOperands
    rw [List.get_eq_getElem, List.get_eq_getElem, isSlot, isOperand, ← text] at taken
    exact knows_of_register found member listed taken

theorem accepted_words_with_width :
    let table : RuleTable := ⟨"1.0.0", "t", Dict.ofList [("r", .tokens ["A", "B"])],
      Dict.ofList [("LD", ["LD.W %r, %r"])], Dict.empty, []⟩
    let lines := ["x: ld.w b, A".toList]
    Unreported (.ofTable table ⟨true, true⟩) lines 0 ⟨"ld.w".toList, 3⟩ ∧
      Unreported (.ofTable table ⟨true, true⟩) lines 0 ⟨"b".toList, 8⟩ := by
  intro table lines
  let instruction : Instruction := ⟨3, "ld.w".toList, " b, A".toList⟩
  let slot : Slot := .registers "r" (upperSet ["A", "B"])
  let rule : Rule := ⟨"LD.W %r, %r", "LD.W", [slot, slot]⟩
  have entry : table.entryFor? instruction.name = some ("LD", ["LD.W %r, %r"]) := by decide
  have compiled : Rule.compile table.legend ⟨true, true⟩ "LD.W %r, %r" = .ok rule := by rfl
  have unquoted : literals (codePart "x: ld.w b, A".toList) = [] := literals_eq_nil (by decide)
  have fits : mismatch? ⟨true, true⟩ (literals (codePart "x: ld.w b, A".toList)) instruction rule =
      none := by
    rw [unquoted]
    decide
  have operand : (operandsFor ⟨true, true⟩ (literals (codePart "x: ld.w b, A".toList)) instruction
      rule)[0]? = some ['b'] := by
    rw [unquoted]
    decide
  have name : (⟨['b'], 8⟩ : Token) ∈ names (codePart "x: ld.w b, A".toList) :=
    mem_names_iff.2 ⟨"x: ld.w ".toList, ", A".toList, by decide, by decide, by decide, by decide,
      by decide, by decide, by decide, by decide⟩
  have ⟨_, _, mnemonic, registers⟩ := accepted_words_unreported table ⟨true, true⟩ lines 0 _
    instruction (Usage.compile table.legend ⟨true, true⟩ ("LD", ["LD.W %r, %r"])) rfl (by decide)
    (by rw [Grammar.lookup_ofTable, entry, Option.map_some])
  have member : .ok rule ∈
      (Usage.compile table.legend ⟨true, true⟩ ("LD", ["LD.W %r, %r"])).rules := by
    simp [Usage.compile, compiled]
  exact ⟨mnemonic (.inr ⟨rule, member, fits⟩),
    registers rule member fits 0 "r" _ ['b'] rfl operand _ name rfl⟩

section Introduced

theorem LeadsWith.isName {left code rest : List Char} {token : Token}
    (leads : LeadsWith code token rest) (apart : left = [] ∨ 0 < token.start) :
    IsName (left ++ code) ⟨token.text, left.length + token.start⟩ := by
  have starts := leads.starts
  obtain ⟨indent, text, blanks, column, run, -⟩ := leads
  have ends {inClass : Char → Bool}
      (refused : [' ', '\t', '\n', '\x0c', '\r'].any inClass = false) :
      EndsOutside inClass (left ++ indent) := by
    intro c last
    by_cases flush : indent = []
    · have atStart : left = [] := apart.resolve_right (by simp [← column, flush])
      simp [atStart, flush] at last
    · rw [List.getLast?_append_of_ne_nil _ flush] at last
      exact outside_of_isBlank refused (blanks.inside c (List.mem_of_getLast? last))
  refine ⟨left ++ indent, rest, ?_, by simp [column], nameBetween_of_starts starts run.inside
    run.stops (ends (by decide)) (ends (by decide))⟩
  rw [blanks.split, run.split]
  simp only [List.append_assoc]

theorem LeadsWith.isName_token {code rest : List Char} {token : Token}
    (leads : LeadsWith code token rest) : IsName code token := by
  have name := @LeadsWith.isName [] code rest token leads (.inl rfl)
  rwa [List.nil_append, List.length_nil, Nat.zero_add] at name

theorem Declares.exists_written {isKeyword : String → Bool} {code : List Char} {token : Token}
    (declares : Declares isKeyword code token) :
    ∃ written, IsName code written ∧ written.start = token.start ∧
      dropTrailingDots written.text = token.text := by
  obtain ⟨keyword, rest, gap, dots, after, leads, -, spaced, next, -, ends, allDots, start⟩ :=
    declares
  obtain ⟨before, rfl, length, -⟩ := leads.plain
  refine ⟨_, next.isName (.inr spaced), ?_, dropWhile_reverse_iff.2 ⟨dots, rfl, allDots, ends⟩⟩
  rw [start, length]

variable {table : RuleTable} {policy : OperandPolicy} {lines : List (List Char)}

theorem DefinedAt.unreported {definition : Definition} (defined : DefinedAt lines definition) :
    ∃ raw, lines[definition.line]? = some raw ∧ definition.token ∈ names (codePart raw) ∧
      Unreported (.ofTable table policy) lines definition.line definition.token := by
  have ⟨raw, here, defines⟩ := defined
  obtain ⟨rest, leads⟩ := defines.leadsWith
  refine ⟨raw, here, mem_names_iff.2 leads.isName_token, ?_⟩
  exact unreported_of_resolved here leads.isName_token (.inr (.inl ⟨_, defined, rfl⟩))

end Introduced

/-- A label or variable is not reported where it is defined. A declared name is reported where it is
declared if it is written with dots at its end and means nothing with these dots, and not
otherwise. -/
theorem introduced_names_reported (table : RuleTable) (policy : OperandPolicy)
    (lines : List (List Char)) :
    let grammar := Grammar.ofTable table policy
    (∀ kind, ∀ record ∈ ((SymbolTable.build grammar lines).registry kind).records,
      ∀ site ∈ record.definitions, ∃ raw token, lines[site.line]? = some raw ∧
        token ∈ names (codePart raw) ∧ token.start = site.column ∧ token.name = record.name ∧
        Unreported grammar lines site.line token) ∧
    (∀ line raw token, lines[line]? = some raw →
      declaration? grammar.isDeclarationKeyword (codePart raw) = some token →
      ∃ written ∈ names (codePart raw), written.start = token.start ∧
        dropTrailingDots written.text = token.text ∧
        (ReportedAt grammar lines line written ↔
          written ≠ token ∧ ¬ Resolved table lines written.name) ∧
        (written = token → Unreported grammar lines line written)) := by
  intro grammar
  have described := SymbolTable.describes_build grammar lines
  have keywords : grammar.isDeclarationKeyword = table.isDeclarationKeyword :=
    Grammar.isDeclarationKeyword_ofTable table policy
  refine ⟨?_, ?_⟩
  · intro kind record member site listed
    obtain ⟨token, defined, named, column⟩ :=
      (described.tracked kind record.name site).1 ⟨record, member, rfl, listed⟩
    obtain ⟨raw, here, name, unreported⟩ := defined.unreported
    exact ⟨raw, token, here, name, column, named, unreported⟩
  · intro line raw token here declared
    have declares := declaration?_iff.1 declared
    obtain ⟨written, name, start, trimmed⟩ := declares.exists_written
    have outside : ¬ InLiteral (codePart raw) written.start written.stop :=
      start ▸ declares.not_inLiteral _
    have introduced : written = token → Resolved table lines written.name := by
      rintro rfl
      exact .inr (.inr ⟨line, written, ⟨raw, here, keywords ▸ declares⟩, rfl⟩)
    refine ⟨written, mem_names_iff.2 name, start, trimmed, ?_, ?_⟩
    · rw [reportedAt_iff here name outside]
      exact ⟨fun unresolved => ⟨fun same => unresolved (introduced same), unresolved⟩, And.right⟩
    · intro same
      exact unreported_of_resolved here name (introduced same)

theorem introduced_names_without_meaning :
    let table : RuleTable := ⟨"1.0.0", "t", Dict.empty, Dict.empty,
      Dict.ofList [("EXTERN", ["EXTERN x"])], ["EXTERN"]⟩
    let grammar := Grammar.ofTable table ⟨true, true⟩
    let lines := ["EXTERN foo".toList, "bar. = 1".toList]
    Unreported grammar lines 0 ⟨"foo".toList, 7⟩ ∧
      ∃ token, token.start = 0 ∧ token.name = "bar." ∧ Unreported grammar lines 1 token := by
  intro table grammar lines
  have ⟨defined, declared⟩ := introduced_names_reported table ⟨true, true⟩ lines
  have recorded : ⟨"bar.", .var, [⟨1, 0⟩]⟩ ∈ (SymbolTable.build grammar lines).vars.records := by
    rw [SymbolTable.build, List.zipIdx_cons, List.zipIdx_singleton, List.foldl_cons,
      List.foldl_cons, List.foldl_nil]
    dsimp only
    rw [SymbolTable.observe_eq, SymbolTable.observe_eq]
    decide
  have name : IsName (codePart "EXTERN foo".toList) ⟨"foo".toList, 7⟩ :=
    ⟨"EXTERN ".toList, [], by decide, by decide, by decide, by decide, by decide, by decide,
      by decide, by decide⟩
  obtain ⟨written, member, start, -, -, unreported⟩ :=
    declared 0 "EXTERN foo".toList ⟨"foo".toList, 7⟩ rfl (by decide)
  obtain ⟨-, token, -, -, column, named, unreportedVariable⟩ :=
    defined .var _ recorded ⟨1, 0⟩ List.mem_cons_self
  have same : written = ⟨"foo".toList, 7⟩ := (mem_names_iff.1 member).eq_of_start name start
  exact ⟨same ▸ unreported same, token, column, named, unreportedVariable⟩

/-- A declared name with a dot at its end is reported on the line that declares it. -/
theorem declared_name_reports_itself :
    let table : RuleTable := ⟨"1.0.0", "t", Dict.empty, Dict.empty,
      Dict.ofList [("EXTERN", ["EXTERN x"])], ["EXTERN"]⟩
    let grammar := Grammar.ofTable table ⟨true, true⟩
    let raw := "EXTERN foo.".toList
    declaration? grammar.isDeclarationKeyword (codePart raw) = some ⟨"foo".toList, 7⟩ ∧
      ⟨"foo.".toList, 7⟩ ∈ names (codePart raw) ∧
      ReportedAt grammar [raw] 0 ⟨"foo.".toList, 7⟩ := by
  intro table grammar raw
  have name : IsName (codePart raw) ⟨"foo.".toList, 7⟩ :=
    ⟨"EXTERN ".toList, [], by decide, by decide, by decide, by decide, by decide, by decide,
      by decide, by decide⟩
  have unresolved : ¬ Resolved table [raw] (Token.name ⟨"foo.".toList, 7⟩) := by
    rw [← @isResolved_iff table ⟨true, true⟩ _ _ _ name, SymbolTable.build, List.zipIdx_singleton,
      List.foldl_cons, List.foldl_nil]
    dsimp only
    rw [SymbolTable.observe_eq]
    decide
  have unquoted : ¬ InLiteral (codePart raw) 7 11 := by
    rw [InLiteral, literals_eq_nil (by decide)]
    simp
  exact ⟨by decide, mem_names_iff.2 name, (reportedAt_iff rfl name unquoted).2 unresolved⟩

end AsmLint
