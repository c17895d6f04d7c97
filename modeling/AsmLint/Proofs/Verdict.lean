import AsmLint.Command.Run
import AsmLint.Proofs.Duplicates
import AsmLint.Proofs.References
import AsmLint.Proofs.Usage

/-! The verdict on a document. A document is clean if its lines meet five conditions, none of which
mentions a check; the report of a clean document is empty, that of any other is not, and the command
ends with status zero for clean documents alone. -/

namespace AsmLint

structure Clean (table : RuleTable) (policy : OperandPolicy) (lines : List (List Char)) :
    Prop where
  definedOnce : ∀ kind name first second, DefinedOn lines kind name first →
    DefinedOn lines kind name second → first = second
  resolved : ∀ raw ∈ lines, ∀ token, IsName (codePart raw) token →
    ¬ InLiteral (codePart raw) token.start token.stop → Resolved table lines token.name
  accepted : ∀ raw ∈ lines, ∀ instruction usage, InstructionAt (codePart raw) instruction →
    (Grammar.ofTable table policy).lookup instruction.name = some usage →
    ∃ rule, .ok rule ∈ usage.rules ∧ rule.Accepts policy (codePart raw) instruction
  braces : openBraces lines = closeBraces lines
  macros : ∀ suffix, suffix <:+ lines → macroStarts suffix ≤ macroEnds suffix

section Checks

variable {table : RuleTable} {policy : OperandPolicy} {lines : List (List Char)}

theorem checkBalance_eq_nil_iff (grammar : Grammar) :
    checkBalance (SymbolTable.build grammar lines).nesting = [] ↔
      openBraces lines = closeBraces lines ∧
        ∀ suffix, suffix <:+ lines → macroStarts suffix ≤ macroEnds suffix := by
  rw [(SymbolTable.describes_build grammar lines).nesting, ← Nesting.after_braceDepth_eq_zero_iff,
    ← Nesting.after_macroDepth_eq_zero_iff]
  simp [checkBalance, checkBraces, checkMacros]

theorem checkDuplicates_eq_nil_iff (grammar : Grammar) :
    checkDuplicates (.build grammar lines) = [] ↔
      ∀ kind name first second, DefinedOn lines kind name first →
        DefinedOn lines kind name second → first = second := by
  rw [checkDuplicates, (SymbolTable.describes_build grammar lines).redefinitions_eq,
    List.map_eq_nil_iff, List.map_eq_nil_iff, repeated_eq_nil_iff]

theorem checkLine_eq_nil_iff {symbols : SymbolTable} {line : Nat} {raw : List Char} :
    checkLine (.ofTable table policy) symbols line raw = [] ↔
      ¬ Misused table policy (codePart raw) ∧
        undefinedNames (.ofTable table policy) symbols (codePart raw) = [] := by
  simp only [checkLine]
  split
  case isTrue blank =>
    have blank := List.isEmpty_iff.1 blank
    have noUsage := checkUsage_eq_none_of_blank blank (.ofTable table policy) line
    simp [checkUsage_eq_none_iff.1 noUsage, undefinedNames, names_eq_nil blank]
  case isFalse notBlank =>
    rw [List.append_eq_nil_iff, Option.toList_eq_nil_iff, checkUsage_eq_none_iff, checkReferences,
      List.map_eq_nil_iff]

theorem checkLines_eq_nil_iff :
    checkLines (.ofTable table policy) (.build (.ofTable table policy) lines) lines = [] ↔
      ∀ raw ∈ lines, ¬ Misused table policy (codePart raw) ∧
        ∀ token, IsName (codePart raw) token →
          ¬ InLiteral (codePart raw) token.start token.stop → Resolved table lines token.name := by
  have undefined {code : List Char} :
      undefinedNames (.ofTable table policy) (.build (.ofTable table policy) lines) code = [] ↔
        ∀ token, IsName code token → ¬ InLiteral code token.start token.stop →
          Resolved table lines token.name := by
    rw [List.eq_nil_iff_forall_not_mem]
    apply forall_congr'
    intro token
    rw [mem_undefinedNames_iff]
    grind
  simp only [checkLines, List.flatMap_eq_nil_iff, checkLine_eq_nil_iff, undefined]
  constructor
  · intro all raw member
    obtain ⟨line, here⟩ := List.mem_iff_getElem?.1 member
    exact all (raw, line) (List.mem_zipIdx_iff_getElem?.2 here)
  · rintro all ⟨raw, line⟩ member
    exact all raw (List.mem_of_getElem? (List.mem_zipIdx_iff_getElem?.1 member))

end Checks

theorem issues_eq_nil_iff {table : RuleTable} {policy : OperandPolicy} {lines : List (List Char)} :
    (validateLines (.ofTable table policy) lines).issues = [] ↔ Clean table policy lines := by
  simp only [validateLines, List.append_eq_nil_iff, checkLines_eq_nil_iff,
    checkDuplicates_eq_nil_iff, checkBalance_eq_nil_iff]
  constructor
  · rintro ⟨⟨byLine, definedOnce⟩, braces, macros⟩
    refine ⟨definedOnce, fun raw member => (byLine raw member).2, ?_, braces, macros⟩
    intro raw member instruction usage place found
    apply Classical.byContradiction
    intro refused
    exact (byLine raw member).1 ⟨instruction, usage, place, found, refused⟩
  · intro clean
    refine ⟨⟨fun raw member => ⟨?_, clean.resolved raw member⟩, clean.definedOnce⟩, clean.braces,
      clean.macros⟩
    rintro ⟨instruction, usage, place, found, refused⟩
    exact refused (clean.accepted raw member instruction usage place found)

theorem status_lint {files : Files} {file text : String} {choice : GrammarChoice}
    {grammar : Grammar} (format : OutputFormat) (readable : files file = some text)
    (loaded : files.grammar choice = .ok grammar) :
    ((Request.lint file choice).run format files).status =
      if (validate grammar text).ok then 0 else 1 := by
  have source : files.source file = .ok text := by simp [Files.source, readable]
  cases format <;> simp [Request.run, runLint, source, loaded, bind, Except.bind, pure, Except.pure,
    Outcome.sortedJson, Outcome.json, Outcome.printed]

/-- The verdict on a document: a report is accepted exactly if it is empty, it is empty exactly if
the document is clean, and then alone does a run of the command on it end with status zero. -/
theorem verdict_iff_clean (table : RuleTable) (policy : OperandPolicy) (text : String) :
    ((validate (.ofTable table policy) text).ok = true ↔
      (validate (.ofTable table policy) text).issues = []) ∧
    ((validate (.ofTable table policy) text).issues = [] ↔
      Clean table policy (splitLines text.toList)) ∧
    ∀ (files : Files) (file : String) (choice : GrammarChoice) (terminal : Bool)
      (arguments : List String) (format : OutputFormat) (level : LogLevel),
      files file = some text → files.grammar choice = .ok (.ofTable table policy) →
      Invocation.read terminal arguments = .ok ⟨.lint file choice, format, level⟩ →
      ((runCommand terminal arguments files).status = 0 ↔
        Clean table policy (splitLines text.toList)) := by
  refine ⟨ok_iff _ _, issues_eq_nil_iff, ?_⟩
  intro files file choice terminal arguments format level readable loaded invocation
  have status : (runCommand terminal arguments files).status =
      if (validate (.ofTable table policy) text).ok then 0 else 1 := by
    rw [runCommand, invocation]
    exact status_lint format readable loaded
  rw [status, ← @issues_eq_nil_iff table policy, ← ok_iff, ← validate]
  cases (validate (.ofTable table policy) text).ok <;> simp

theorem verdict_label_and_brace :
    (runCommand false ["lint", "a.asm"] fun _ => some "a:").status = 0 ∧
      (runCommand false ["lint", "a.asm", "--output=pretty"] fun _ => some "\x7b").status ≠ 0 := by
  have json : Invocation.read false ["lint", "a.asm"] =
      .ok ⟨.lint "a.asm" ⟨.z80, none⟩, .json, .warn⟩ := rfl
  have pretty : Invocation.read false ["lint", "a.asm", "--output=pretty"] =
      .ok ⟨.lint "a.asm" ⟨.z80, none⟩, .pretty, .warn⟩ := rfl
  have lines : splitLines "a:".toList = [['a', ':']] := by decide
  have clean : Clean Z80.table Dialect.z80.policy [['a', ':']] := {
    definedOnce := repeated_eq_nil_iff.1 (by decide)
    resolved := by
      intro raw member token name _
      obtain rfl := List.mem_singleton.1 member
      have only : names (codePart ['a', ':']) = [⟨['a'], 0⟩] := by
        simp [codePart, isCommentMarker, names, namesFrom, isNameChar]
      rw [← mem_names_iff, only, List.mem_singleton] at name
      subst name
      exact .inr (.inl ⟨⟨.label, 0, ⟨['a'], 0⟩⟩, mem_definitions_iff.1 (by decide), rfl⟩)
    accepted := by
      intro raw member instruction usage place
      obtain rfl := List.mem_singleton.1 member
      have none : Instruction.of? (codePart ['a', ':']) = none := by decide
      rw [← instruction_of?_iff, none] at place
      contradiction
    braces := by decide
    macros := (Nesting.after_macroDepth_eq_zero_iff _).1 (by decide) }
  constructor
  · have verdict := (verdict_iff_clean Z80.table Dialect.z80.policy "a:").2.2
    exact (verdict _ "a.asm" ⟨.z80, none⟩ false _ .json .warn rfl rfl json).2 (lines ▸ clean)
  · intro status
    have verdict := (verdict_iff_clean Z80.table Dialect.z80.policy "\x7b").2.2
    have clean := (verdict _ "a.asm" ⟨.z80, none⟩ false _ .pretty .warn rfl rfl pretty).1 status
    exact absurd clean.braces (by decide)

end AsmLint
