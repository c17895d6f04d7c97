import AsmLint.Dialect
import AsmLint.Proofs.SatisfiableRules
import AsmLint.Proofs.TableLookup

/-! Rules of the built-in table that a line can satisfy. What the general theory asks of a table is
evaluated here, with the texts of the table as lists of characters. All rules have a line but one,
the rule for a constant: it has a slot for any text and another slot beside it. -/

namespace AsmLint

section Lookup

theorem lookup_of_stem {table : RuleTable} (policy : OperandPolicy) {word key : String}
    {rules : List String} (raised : ∀ key ∈ table.mnemonics, upperName key = key)
    (noDots : ∀ key ∈ table.mnemonics, '.' ∉ key.toList) (upperWord : upperName word = word)
    (stem : word.toList.takeWhile (· != '.') = key.toList)
    (listed : table.rulesFor? key = some rules) :
    (Grammar.ofTable table policy).lookup word =
      some ⟨key, rules.map (Rule.compile table.legend policy)⟩ := by
  obtain ⟨spelling, entry⟩ := (exists_entryOf_iff_rulesFor? raised).2 listed
  rw [lookup_eq_some_iff, upperWord]
  refine ⟨key, spelling, rules, ?_, entry, rfl⟩
  have run := longestRun_takeWhile (· != '.') word.toList
  rw [stem] at run
  have noDot : '.' ∉ key.toList := fun dot => by simpa using run.inside _ dot
  cases after : word.toList.dropWhile (· != '.') with
  | nil =>
    obtain rfl : word = key := String.toList_inj.1 (by rw [run.split, after, List.append_nil])
    exact .whole
  | cons c rest =>
    rw [after] at run
    obtain rfl : c = '.' := by simpa using run.stops
    refine .stem (fun other member same => ?_) run.split noDot
    apply noDots other member
    rw [← raised other member, same, run.split]
    simp

end Lookup

section BuiltIn

/-- Some line without a comment is looked up as the usage and accepted by its rule of that text. -/
def Grammar.HasLine (grammar : Grammar) (usage : Usage) (text : String) : Prop :=
  ∃ rule code instruction, .ok rule ∈ usage.rules ∧ rule.text = text ∧ codePart code = code ∧
    InstructionAt code instruction ∧ grammar.lookup instruction.name = some usage ∧
    rule.Accepts grammar.policy code instruction

/-- A text and its characters. The built-in table is checked as lists of characters, which are far
easier to evaluate than strings. -/
inductive Spelled : String → List Char → Prop where
  | intro {chars} : Spelled (String.ofList chars) chars

inductive SpelledEntry : String × List String → List Char × List (List Char) → Prop where
  | intro {key texts chars} : List.Forall₂ Spelled texts chars →
      SpelledEntry (String.ofList key, texts) (key, chars)

theorem exists_of_forall₂ {α β : Type} {related : α → β → Prop} {as : List α} {bs : List β}
    (pairs : List.Forall₂ related as bs) {a : α} (member : a ∈ as) : ∃ b ∈ bs, related a b := by
  induction pairs with
  | nil => simp at member
  | cons first _ ih =>
    rcases List.mem_cons.1 member with rfl | member
    · exact ⟨_, List.mem_cons_self, first⟩
    · obtain ⟨b, listed, holds⟩ := ih member
      exact ⟨b, List.mem_cons_of_mem _ listed, holds⟩

def headFits (key head : List Char) : Bool :=
  head.takeWhile (· != '.') == key && upper head == head &&
    (Instruction.of? head).any (·.mnemonic == head)

def operandsFit (rest : List (List Char)) : Bool :=
  (operandUnits rest).all isFillable &&
    ((operandUnits rest).length < 2 || !(operandUnits rest).contains ['%', 'a', 'n', 'y'])

/-- Rules with an apostrophe, which starts a string literal, and a line for each. -/
def primedLines : List (String × List Char) :=
  [("EX AF, AF'", "EX AF, AF'".toList), ("LD %r, %r'", "LD A, A'".toList)]

def lineFits (text : String) (code : List Char) : Bool :=
  match Rule.compile Z80.legend ⟨true, true⟩ text, Instruction.of? code with
  | .ok rule, some instruction => codePart code == code && instruction.name == rule.head &&
      (mismatch? ⟨true, true⟩ (literals code) instruction rule).isNone
  | _, _ => false

def ruleFits (key text : List Char) : Bool :=
  match units text with
  | [] => false
  | head :: rest => headFits key head && (operandsFit rest ||
      (primedLines.map (·.1.toList)).contains text)

def entryFits (entry : List Char × List (List Char)) : Bool :=
  upper entry.1 == entry.1 && !entry.1.contains '.' &&
    entry.2.all fun text => text == "%var EQU %any".toList || ruleFits entry.1 text

theorem builtin_entries_fit : ∃ instructions directives spelled others,
    Z80.table.instructions = Dict.ofList instructions ∧
    Z80.table.directives = Dict.ofList directives ∧
    List.Forall₂ SpelledEntry instructions spelled ∧ List.Forall₂ SpelledEntry directives others ∧
    spelled.all entryFits = true ∧ others.all entryFits = true ∧
    others.all (fun entry => !(spelled.map (·.1)).contains entry.1) = true :=
  ⟨_, _, _, _, rfl, rfl, by repeat' constructor, by repeat' constructor, by decide +kernel,
    by decide +kernel, by decide +kernel⟩

theorem SpelledEntry.key_eq {entry : String × List String} {chars : List Char × List (List Char)}
    (spelled : SpelledEntry entry chars) : entry.1.toList = chars.1 := by
  cases spelled
  exact String.toList_ofList

theorem SpelledEntry.mem_of_mem {entry : String × List String}
    {chars : List Char × List (List Char)} (spelled : SpelledEntry entry chars) {text : String}
    (listed : text ∈ entry.2) : text.toList ∈ chars.2 := by
  cases spelled with
  | intro texts =>
    obtain ⟨written, member, same⟩ := exists_of_forall₂ texts listed
    cases same
    rwa [String.toList_ofList]

theorem exists_spelled {given : List (String × List String)}
    {spelled : List (List Char × List (List Char))}
    (pairs : List.Forall₂ SpelledEntry given spelled) {entry : String × List String}
    (member : entry ∈ (Dict.ofList given).entries) : ∃ chars ∈ spelled, SpelledEntry entry chars :=
  exists_of_forall₂ pairs (Dict.mem_of_mem_ofList member)

theorem exists_entryFits {entry : String × List String} (member : entry ∈ Z80.table.entries) :
    ∃ chars, SpelledEntry entry chars ∧ entryFits chars = true := by
  obtain ⟨given, others, spelled, otherSpelled, instructions, directives, pairs, otherPairs, fit,
    otherFit, -⟩ := builtin_entries_fit
  rw [RuleTable.entries, List.mem_append, instructions, directives] at member
  rcases member with directive | instruction
  · obtain ⟨chars, listed, same⟩ := exists_spelled otherPairs directive
    exact ⟨chars, same, List.all_eq_true.1 otherFit chars listed⟩
  · obtain ⟨chars, listed, same⟩ := exists_spelled pairs instruction
    exact ⟨chars, same, List.all_eq_true.1 fit chars listed⟩

theorem builtin_rulesFor? {entry : String × List String} (member : entry ∈ Z80.table.entries) :
    Z80.table.rulesFor? entry.1 = some entry.2 := by
  obtain ⟨given, others, spelled, otherSpelled, instructions, directives, pairs, otherPairs, -, -,
    apart⟩ := builtin_entries_fit
  rw [RuleTable.entries, List.mem_append] at member
  rw [RuleTable.rulesFor?]
  rcases member with directive | instruction
  · have none : Z80.table.instructions.get? entry.1 = none := by
      apply Option.eq_none_iff_forall_ne_some.2
      intro rules found
      have instruction := Dict.get?_eq_some_iff.1 found
      rw [instructions] at instruction
      rw [directives] at directive
      obtain ⟨chars, listed, same⟩ := exists_spelled pairs instruction
      obtain ⟨otherChars, otherListed, otherSame⟩ := exists_spelled otherPairs directive
      have fresh := List.all_eq_true.1 apart otherChars otherListed
      rw [← otherSame.key_eq, same.key_eq] at fresh
      simp only [Bool.not_eq_true', List.contains_eq_mem, decide_eq_false_iff_not] at fresh
      exact fresh (List.mem_map_of_mem listed)
    rw [none, Option.none_or]
    exact Dict.get?_eq_some_iff.2 directive
  · rw [Dict.get?_eq_some_iff.2 instruction, Option.some_or]

theorem exists_entry_of_mem_mnemonics {key : String} (member : key ∈ Z80.table.mnemonics) :
    ∃ rules, (key, rules) ∈ Z80.table.entries := by
  simp only [RuleTable.mnemonics, Dict.keys, List.mem_append, List.mem_map] at member
  rcases member with ⟨⟨_, rules⟩, listed, rfl⟩ | ⟨⟨_, rules⟩, listed, rfl⟩
  · exact ⟨rules, List.mem_append_right _ listed⟩
  · exact ⟨rules, List.mem_append_left _ listed⟩

theorem SpelledEntry.key_fits {entry : String × List String}
    {chars : List Char × List (List Char)} (spelled : SpelledEntry entry chars)
    (fits : entryFits chars = true) : upperName entry.1 = entry.1 ∧ '.' ∉ entry.1.toList := by
  simp only [entryFits, Bool.and_eq_true, beq_iff_eq, Bool.not_eq_true', List.contains_eq_mem,
    decide_eq_false_iff_not, ← spelled.key_eq] at fits
  obtain ⟨⟨raised, noDot⟩, -⟩ := fits
  exact ⟨by rw [upperName, raised, String.ofList_toList], noDot⟩

theorem builtin_mnemonic {key : String} (member : key ∈ Z80.table.mnemonics) :
    upperName key = key ∧ '.' ∉ key.toList := by
  obtain ⟨rules, listed⟩ := exists_entry_of_mem_mnemonics member
  obtain ⟨chars, spelled, fits⟩ := exists_entryFits listed
  exact spelled.key_fits fits

def legendEntryFits (entry : String × LegendEntry) : Bool :=
  match entry.2 with
  | .tokens spellings => isSolid (spellings.headD "").toList
  | .categories kinds => !kinds.contains .anything || entry.1 == "any"

theorem builtin_legend_fits : ∃ given, Z80.legend = Dict.ofList given ∧
    given.all legendEntryFits = true :=
  ⟨_, rfl, by decide +kernel⟩

theorem builtin_hasSamples : HasSamples Z80.legend := by
  obtain ⟨given, legend, fits⟩ := builtin_legend_fits
  intro key spellings found
  rw [legend] at found
  have listed := Dict.mem_of_mem_ofList (Dict.get?_eq_some_iff.1 found)
  exact List.all_eq_true.1 fits _ listed

theorem builtin_freeForm {policy : OperandPolicy} {unit : List Char}
    (free : (Slot.ofUnit Z80.legend policy unit).freeForm = true) :
    unit = ['%', 'a', 'n', 'y'] := by
  obtain ⟨key, kinds, rfl, found, anything⟩ := Slot.exists_key_of_freeForm free
  obtain ⟨given, legend, fits⟩ := builtin_legend_fits
  rw [legend] at found
  have listed := Dict.mem_of_mem_ofList (Dict.get?_eq_some_iff.1 found)
  have named := List.all_eq_true.1 fits _ listed
  simp only [legendEntryFits, anything, Bool.not_true, Bool.false_or, beq_iff_eq] at named
  rw [← @String.toList_ofList key, named]
  decide

/-- A rule of the built-in table with an apostrophe is satisfied too: nothing follows the literal
that the apostrophe starts. -/
theorem primed_rules_accepted {text : String} (primed : text.toList ∈ primedLines.map (·.1.toList))
    {rule : Rule} (compiled : Rule.compile Z80.legend ⟨true, true⟩ text = .ok rule) :
    ∃ code instruction, codePart code = code ∧ InstructionAt code instruction ∧
      instruction.name = rule.head ∧ rule.Accepts ⟨true, true⟩ code instruction := by
  have fit : primedLines.all (fun line => lineFits line.1 line.2) = true := by decide +kernel
  obtain ⟨⟨_, code⟩, listed, same⟩ := List.mem_map.1 primed
  obtain rfl := String.toList_inj.1 same
  have holds := List.all_eq_true.1 fit _ listed
  rw [lineFits, compiled] at holds
  cases found : Instruction.of? code with
  | none => simp [found] at holds
  | some instruction =>
    simp only [found, Bool.and_eq_true, beq_iff_eq, Option.isNone_iff_eq_none] at holds
    have place := instruction_of?_iff.1 found
    obtain ⟨head, rest, -, rfl⟩ := compile_eq_ok_iff.1 compiled
    obtain ⟨⟨uncommented, name⟩, fits⟩ := holds
    refine ⟨code, instruction, uncommented, place, name, (mismatch?_eq_none_iff place ?_).1 fits⟩
    rw [String.toList_ofList, upper_upper]

theorem exists_accepted_of_operandsFit {text : String} {rule : Rule} {head : List Char}
    {rest : List (List Char)} (compiled : Rule.compile Z80.legend ⟨true, true⟩ text = .ok rule)
    (split : units text.toList = head :: rest) (mnemonic : IsMnemonic head)
    (fits : operandsFit rest = true) :
    ∃ code instruction, codePart code = code ∧ InstructionAt code instruction ∧
      instruction.name = rule.head ∧ rule.Accepts ⟨true, true⟩ code instruction := by
  simp only [operandsFit, Bool.and_eq_true, List.all_eq_true, Bool.or_eq_true, decide_eq_true_eq,
    Bool.not_eq_true', List.contains_eq_mem, decide_eq_false_iff_not] at fits
  obtain ⟨filled, alone⟩ := fits
  obtain ⟨head', rest', split', rfl⟩ := compile_eq_ok_iff.1 compiled
  obtain ⟨rfl, rfl⟩ := List.cons.inj (split.symm.trans split')
  have takes := takes_filledUnits builtin_hasSamples rfl compiled split filled (by
    intro _ free
    obtain ⟨slot, member, slotFree⟩ := List.any_eq_true.1 free
    obtain ⟨unit, listed, rfl⟩ := List.mem_map.1 member
    obtain rfl := builtin_freeForm slotFree
    simpa using alone.resolve_right (not_not_intro listed))
  obtain ⟨code, instruction, uncommented, place, word, accepted⟩ :=
    takes.exists_accepted mnemonic.upper fun _ => sameIgnoringCase_iff.2 (by simp)
  exact ⟨code, instruction, uncommented, place, by rw [Instruction.name, word], accepted⟩

theorem exists_accepted_of_ruleFits {key : List Char} {text : String}
    (fits : ruleFits key text.toList = true) :
    ∃ rule code instruction, Rule.compile Z80.legend ⟨true, true⟩ text = .ok rule ∧
      rule.head.toList.takeWhile (· != '.') = key ∧ codePart code = code ∧
      InstructionAt code instruction ∧ instruction.name = rule.head ∧
      rule.Accepts ⟨true, true⟩ code instruction := by
  rw [ruleFits] at fits
  split at fits
  case h_1 => simp at fits
  case h_2 head rest split =>
    simp only [Bool.and_eq_true, Bool.or_eq_true, headFits, beq_iff_eq, Option.any_eq_true] at fits
    obtain ⟨⟨⟨stem, raised⟩, word, found, named⟩, operands⟩ := fits
    have mnemonic : IsMnemonic head := named ▸ (mnemonic_of_instruction_of? found).2
    obtain ⟨rule, compiled, spelled⟩ : ∃ rule, Rule.compile Z80.legend ⟨true, true⟩ text =
        .ok rule ∧ rule.head.toList = head :=
      ⟨_, compile_eq_ok_iff.2 ⟨head, rest, split, rfl⟩, by rw [String.toList_ofList, raised]⟩
    have satisfied : ∃ code instruction, codePart code = code ∧ InstructionAt code instruction ∧
        instruction.name = rule.head ∧ rule.Accepts ⟨true, true⟩ code instruction := by
      rcases operands with fit | primed
      · exact exists_accepted_of_operandsFit compiled split mnemonic fit
      · exact primed_rules_accepted (List.contains_iff_mem.1 primed) compiled
    obtain ⟨code, instruction, uncommented, place, name, accepted⟩ := satisfied
    exact ⟨rule, code, instruction, compiled, by rw [spelled, stem], uncommented, place, name,
      accepted⟩

theorem builtin_hasLine {entry : String × List String} (member : entry ∈ Z80.table.entries)
    {text : String} (listed : text ∈ entry.2) (other : text ≠ "%var EQU %any") :
    z80Grammar.HasLine (Usage.compile Z80.legend ⟨true, true⟩ entry) text := by
  obtain ⟨chars, spelled, fits⟩ := exists_entryFits member
  have textFits := List.all_eq_true.1 (Bool.and_eq_true_iff.1 fits).2 _ (spelled.mem_of_mem listed)
  rw [Bool.or_eq_true, beq_iff_eq, String.toList_inj, or_iff_right other, ← spelled.key_eq]
    at textFits
  obtain ⟨rule, code, instruction, compiled, stem, uncommented, place, name, accepted⟩ :=
    exists_accepted_of_ruleFits textFits
  obtain ⟨head, rest, -, rfl⟩ := compile_eq_ok_iff.1 compiled
  have found : z80Grammar.lookup instruction.name =
      some (Usage.compile Z80.legend ⟨true, true⟩ entry) := by
    rw [name, Usage.compile, (spelled.key_fits fits).1]
    refine lookup_of_stem _ (fun _ member => (builtin_mnemonic member).1)
      (fun _ member => (builtin_mnemonic member).2) ?_ stem (builtin_rulesFor? member)
    rw [upperName, String.toList_ofList, upper_upper]
  refine ⟨_, code, instruction, ?_, rfl, uncommented, place, found, accepted⟩
  rw [← compiled]
  exact List.mem_map_of_mem listed

theorem compile_constant_rule : Rule.compile Z80.legend ⟨true, true⟩ "%var EQU %any" =
    .ok ⟨"%var EQU %any", "%VAR", [.literal "EQU", .any "any" true]⟩ :=
  compile_eq_ok_iff.2 ⟨['%', 'v', 'a', 'r'], [['E', 'Q', 'U'], ['%', 'a', 'n', 'y']],
    by decide +kernel, by decide +kernel⟩

theorem compile_text_of_mem {legend : Legend} {policy : OperandPolicy}
    {entry : String × List String} {rule : Rule}
    (member : .ok rule ∈ (Usage.compile legend policy entry).rules) :
    Rule.compile legend policy rule.text = .ok rule := by
  obtain ⟨text, -, compiled⟩ := List.mem_map.1 member
  have kept := compiledFrom_compile legend policy text
  rw [compiled] at kept
  obtain rfl : rule.text = text := kept
  exact compiled

theorem not_hasLine_constant_rule {entry : String × List String} :
    ¬ z80Grammar.HasLine (Usage.compile Z80.legend ⟨true, true⟩ entry) "%var EQU %any" := by
  rintro ⟨rule, code, instruction, member, text, uncommented, place, -, accepted⟩
  have compiled := compile_text_of_mem member
  rw [text] at compiled
  obtain rfl := Except.ok.inj (compiled.symm.trans compile_constant_rule)
  have satisfied := (exists_accepted_iff_of_freeForm rfl rfl (by decide)).1
    ⟨code, instruction, uncommented, place, accepted⟩
  simp at satisfied

theorem mem_of_mem_variantTexts {entry : String × List String}
    (member : entry ∈ Z80.table.entries) {text : String}
    (listed : text ∈ (Usage.compile Z80.legend ⟨true, true⟩ entry).variantTexts) :
    text ∈ entry.2 := by
  obtain ⟨_, compiled, shown⟩ := List.mem_map.1 listed
  obtain ⟨written, given, rfl⟩ := List.mem_map.1 compiled
  -- Every text of the table compiles, so none is listed as invalid.
  obtain ⟨rule, compiles, same⟩ :
      ∃ rule, Rule.compile Z80.legend ⟨true, true⟩ written = .ok rule ∧ rule.text = written := by
    by_cases constant : written = "%var EQU %any"
    · subst constant
      exact ⟨_, compile_constant_rule, rfl⟩
    · obtain ⟨rule, -, -, listed, rfl, -⟩ := builtin_hasLine member given constant
      exact ⟨rule, compile_text_of_mem listed, rfl⟩
  rw [compiles] at shown
  have shown : rule.text = text := shown
  rwa [← shown, same]

end BuiltIn

/-- Which rules a line can satisfy. A rule with a free-form slot that is given all operands as one
fits something exactly if this slot is its only one; and then a line satisfies it, unless its word
has a dot and is no mnemonic. Of all variants that a report of the built-in dialect can list as
allowed, only the rule for a constant is satisfied by no line. -/
theorem freeForm_rule_satisfiable_iff_alone :
    (∀ legend policy text rule, policy.wholeOperand = true →
      Rule.compile legend policy text = .ok rule → rule.freeForm = true →
      ((∃ quoted instruction, mismatch? policy quoted instruction rule = none) ↔
        rule.slots.length = 1) ∧
      ((∃ code instruction, codePart code = code ∧ InstructionAt code instruction ∧
          rule.Accepts policy code instruction) ↔
        rule.slots.length = 1 ∧ ('.' ∈ rule.head.toList → IsMnemonic rule.head.toList))) ∧
    ∀ usage ∈ z80Grammar.usages.values, ∀ text ∈ usage.variantTexts,
      z80Grammar.HasLine usage text ↔ text ≠ "%var EQU %any" := by
  refine ⟨?_, ?_⟩
  · intro legend policy text rule whole compiled free
    have raised : upper rule.head.toList = rule.head.toList := by
      obtain ⟨head, rest, -, rfl⟩ := compile_eq_ok_iff.1 compiled
      rw [String.toList_ofList, upper_upper]
    exact ⟨exists_fits_iff_of_freeForm whole free raised,
      exists_accepted_iff_of_freeForm whole free raised⟩
  · intro usage member text listed
    obtain ⟨entry, given, rfl⟩ := exists_entry_of_mem_usages member
    constructor
    · rintro satisfied rfl
      exact not_hasLine_constant_rule satisfied
    · exact builtin_hasLine given (mem_of_mem_variantTexts given listed)

theorem width_rule_and_option_rule_satisfiable :
    let legend : Legend := Dict.ofList [("x", .categories [.anything])]
    let rule : Rule := ⟨"DS.B %x", "DS.B", [.any "x" true]⟩
    (∃ code instruction, codePart code = code ∧ InstructionAt code instruction ∧
      rule.Accepts ⟨true, true⟩ code instruction) ∧
    Rule.compile legend ⟨true, true⟩ "DS.B %x" = .ok rule ∧
    ∃ usage ∈ z80Grammar.usages.values, usage.variantTexts = ["IM %[0 1 2]"] ∧
      z80Grammar.HasLine usage "IM %[0 1 2]" := by
  intro legend rule
  obtain ⟨freeForm, builtin⟩ := freeForm_rule_satisfiable_iff_alone
  have compiled : Rule.compile legend ⟨true, true⟩ "DS.B %x" = .ok rule := by rfl
  have word : IsMnemonic ('D' :: ['S'] ++ '.' :: ['B']) :=
    .sized (by decide) (by decide) (by decide) (by decide)
  refine ⟨(freeForm _ _ _ _ rfl compiled rfl).2.2 ⟨rfl, fun _ => ?_⟩, compiled, ?_⟩
  · have spelled : rule.head.toList = 'D' :: ['S'] ++ '.' :: ['B'] := by decide
    rwa [spelled]
  · have stored : Z80.table.rulesFor? "IM" = some ["IM %[0 1 2]"] := by decide +kernel
    obtain ⟨spelling, entry⟩ :=
      (exists_entryOf_iff_rulesFor? fun _ member => (builtin_mnemonic member).1).2 stored
    have found := @Grammar.get?_usages Z80.table ⟨true, true⟩ "IM"
    rw [RuleTable.entryOf?_eq_some_iff.2 entry, Option.map_some] at found
    have member := List.mem_map_of_mem (f := Prod.snd) (Dict.get?_eq_some_iff.1 found)
    have variants : (Usage.compile Z80.table.legend ⟨true, true⟩
        (spelling, ["IM %[0 1 2]"])).variantTexts = ["IM %[0 1 2]"] := by rfl
    refine ⟨_, member, variants, (builtin _ member _ ?_).2 (by decide)⟩
    rw [variants]
    exact List.mem_cons_self

/-- The rule for a constant: its slot for any text takes all operands as one, so that nothing is
left for the slot before it. -/
theorem constant_rule_fits_nothing :
    let rule : Rule := ⟨"%var EQU %any", "%VAR", [.literal "EQU", .any "any" true]⟩
    Rule.compile Z80.legend ⟨true, true⟩ "%var EQU %any" = .ok rule ∧ rule.freeForm = true ∧
      ∀ quoted instruction, mismatch? ⟨true, true⟩ quoted instruction rule ≠ none := by
  refine ⟨compile_constant_rule, rfl, fun quoted instruction fits => ?_⟩
  have alone := length_slots_of_fits rfl rfl fits
  simp at alone

end AsmLint
