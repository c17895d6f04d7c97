import AsmLint.Dialect
import AsmLint.Proofs.ResolvedNames

/-! Keywords and the names of a line. The recognisers of keywords compare the start of a text and
look at the next character alone, while the names of a line are whole runs of name characters. The
two agree up to a dot: a keyword that takes effect is a name of the line, or the part of a name
before a dot. -/

namespace AsmLint

section LeadingNames

theorem LeadsWith.namesFrom_eq {text rest : List Char} {token : Token}
    (leads : LeadsWith text token rest) (position : Nat) :
    namesFrom position false text =
      ⟨token.text, position + token.start⟩ :: namesFrom (position + token.stop) false rest := by
  obtain ⟨indent, body, blanks, column, run, c, first, start⟩ := leads
  obtain ⟨tail, rfl⟩ := List.head?_eq_some_iff.1 first
  have nameChar := isNameStart_isNameChar start
  have named := longestRun_cons nameChar tail
  have spelled : c :: tail.takeWhile isNameChar = token.text :=
    named.takeWhile_eq.symm.trans run.takeWhile_eq
  have follows : tail.dropWhile isNameChar = rest :=
    named.dropWhile_eq.symm.trans run.dropWhile_eq
  have inside := blanks.inside
  rw [blanks.split, Token.stop, ← column]
  clear blanks column
  induction indent generalizing position with
  | nil =>
    have notNumber : ¬ (c.isDigit || (false && (c :: tail.takeWhile isNameChar).all isHexDigit)) =
        true := by
      simp [isDigit_of_isNameStart start]
    rw [List.nil_append, namesFrom, if_pos nameChar, if_neg notNumber, spelled, follows,
      List.length_nil, Nat.add_zero, Nat.zero_add]
  | cons d indent ih =>
    obtain ⟨blank, others⟩ := allIn_cons.1 inside
    have other : isNameChar d = false := outside_of_isBlank (by decide) blank
    have noDollar : (d == '$') = false := @outside_of_isBlank (· == '$') d (by decide) blank
    have start : position + 1 + indent.length = position + (d :: indent).length := by
      rw [List.length_cons]
      omega
    have stop : position + 1 + (indent.length + token.text.length) =
        position + ((d :: indent).length + token.text.length) := by
      rw [List.length_cons]
      omega
    rw [List.cons_append, namesFrom, if_neg (by simp [other]), noDollar, ih (position + 1) others,
      start, stop]

theorem LeadsWith.names_eq {code rest : List Char} {token : Token}
    (leads : LeadsWith code token rest) :
    names code = token :: namesFrom token.stop false rest := by
  have listed := leads.namesFrom_eq 0
  rwa [Nat.zero_add, Nat.zero_add] at listed

theorem LeadsWith.first_name {code rest : List Char} {token : Token}
    (leads : LeadsWith code token rest) : (names code)[0]? = some token := by
  rw [leads.names_eq]
  rfl

theorem LeadsWith.second_name {code rest after : List Char} {token second : Token}
    (leads : LeadsWith code token rest) (next : LeadsWith rest second after) :
    (names code)[1]? = some ⟨second.text, token.stop + second.start⟩ := by
  rw [leads.names_eq, next.namesFrom_eq]
  rfl

end LeadingNames

section Spellings

/-- The name is the keyword, letter case aside, or goes on after the keyword with a dot. -/
def Spells (name keyword : List Char) : Prop :=
  upper name = keyword ∨ ∃ more, upper name = keyword ++ '.' :: more

structure IsKeyword (keyword : List Char) : Prop where
  raised : upper keyword = keyword
  starts : keyword.head?.any isNameStart = true
  inside : AllIn isNameChar keyword

variable {keyword : List Char} (isKeyword : IsKeyword keyword)

include isKeyword

theorem IsKeyword.leadsWith {indent written rest : List Char} (same : upper written = keyword)
    (blanks : AllIn isBlank indent) :
    LeadsWith (indent ++ (written ++ rest))
      ⟨written ++ rest.takeWhile isNameChar, indent.length⟩ (rest.dropWhile isNameChar) := by
  obtain ⟨raised, starts, inside⟩ := isKeyword
  have letterStarts (c : Char) (letter : c.isAlpha = true) : isNameStart c = true := by
    simp [isNameStart, letter]
  have letterInside (c : Char) (letter : c.isAlpha = true) : isNameChar c = true :=
    isNameStart_isNameChar (letterStarts c letter)
  rw [← same] at starts inside
  cases written with
  | nil => simp [upper] at starts
  | cons c written =>
    have start : isNameStart c = true := by
      simpa [upper, inClass_toUpper letterStarts] using starts
    have later := (allIn_cons.1 ((allIn_upper letterInside).1 inside)).2
    have run := longestRun_takeWhile isNameChar rest
    have leads := leadsWith_of_name blanks start (allIn_append.2 ⟨later, run.inside⟩) run.stops
    rwa [List.cons_append, List.append_assoc, ← run.split] at leads

theorem IsKeyword.ledBy_iff {code : List Char} :
    LedBy keyword code ↔ ∃ token rest, LeadsWith code token rest ∧ Spells token.text keyword := by
  constructor
  · rintro ⟨indent, text, blanks, written, rest, rfl, same, stops⟩
    rw [isKeyword.raised] at same
    rw [blanks.split]
    refine ⟨_, _, isKeyword.leadsWith same blanks.inside, ?_⟩
    -- What follows the keyword is no word character, so the name ends there or has a dot.
    cases rest with
    | nil => exact .inl (by simpa using same)
    | cons c rest =>
      have noWord := startsOutside_cons.1 stops
      by_cases dot : c = '.'
      · subst dot
        refine .inr ⟨upper (rest.takeWhile isNameChar), ?_⟩
        rw [List.takeWhile_cons_of_pos (by decide), upper, List.map_append, ← upper, same]
        rfl
      · have outside : ¬ isNameChar c = true := by simp [isNameChar_iff, noWord, dot]
        rw [List.takeWhile_cons_of_neg outside, List.append_nil]
        exact .inl same
  · rintro ⟨token, rest, ⟨indent, text, blanks, -, run, -⟩, spells⟩
    refine ⟨indent, text, blanks, ?_⟩
    rw [StartsWord, run.split, isKeyword.raised]
    rcases spells with same | ⟨more, same⟩
    · refine ⟨token.text, rest, rfl, same, run.stops.mono fun c word => ?_⟩
      simp [isNameChar_iff, word]
    · obtain ⟨written, dotted, split, front, back⟩ := List.map_eq_append_iff.1 same
      obtain ⟨dot, tail, rfl, isDot, -⟩ := List.map_eq_cons_iff.1 back
      obtain rfl := (@toUpper_eq_iff dot '.' (by decide)).1 isDot
      refine ⟨written, '.' :: (tail ++ rest), by simp [split], front, ?_⟩
      exact startsOutside_cons.2 (by decide)

end Spellings

section Variables

def StartsWithWidth (name : List Char) : Prop := ∃ word ∈ storageWords, word <+: upper name

theorem isKeyword_of_mem_storageWords {word : List Char} (member : word ∈ storageWords) :
    IsKeyword word := by
  have keywords : storageWords.all (fun word => upper word == word &&
      word.head?.any isNameStart && word.all isNameChar) = true := by decide
  have holds := List.all_eq_true.1 keywords word member
  simp only [Bool.and_eq_true, beq_iff_eq] at holds
  exact ⟨holds.1.1, holds.1.2, List.all_eq_true.1 holds.2⟩

theorem VariableForm.assigned_or_keyword {inBlock : Prop} {rest gap tail : List Char}
    (form : VariableForm inBlock gap tail) (outside : ¬ inBlock)
    (blanks : LongestRun isBlank rest gap tail) :
    tail.head? = some '=' ∨ ∃ second after, LeadsWith rest second after ∧
      (Spells second.text "EQU".toList ∨ StartsWithWidth second.text) := by
  cases form with
  | constant _ starts =>
    have isKeyword : IsKeyword "EQU".toList := ⟨by decide, by decide, by decide⟩
    obtain ⟨second, after, leads, spells⟩ := isKeyword.ledBy_iff.1 ⟨gap, tail, blanks, starts⟩
    exact .inr ⟨second, after, leads, .inl spells⟩
  | assigned => exact .inl rfl
  | @storage written more _ width =>
    have leads : LeadsWith (gap ++ (written ++ more)) _ _ :=
      (isKeyword_of_mem_storageWords width).leadsWith rfl blanks.inside
    rw [← blanks.split] at leads
    refine .inr ⟨_, _, leads, .inr ⟨upper written, width, ?_⟩⟩
    rw [upper, upper, List.map_append]
    exact List.prefix_append _ _
  | blockMember inside => exact absurd inside outside

end Variables

section Macros

theorem Spells.head?_upper {name keyword : List Char} (spells : Spells name keyword)
    (nonempty : keyword ≠ []) : (upper name).head? = keyword.head? := by
  obtain ⟨c, rest, rfl⟩ := List.exists_cons_of_ne_nil nonempty
  rcases spells with same | ⟨more, same⟩ <;> simp [same]

theorem opensMacro_iff {code : List Char} :
    Nesting.opensMacro code = true ↔
      ∃ lead rest, LeadsWith code lead rest ∧ Spells lead.text "MACRO".toList := by
  have isKeyword : IsKeyword "MACRO".toList := ⟨by decide, by decide, by decide⟩
  rw [Nesting.opensMacro, startsWithKeyword_iff, isKeyword.ledBy_iff]

theorem closesMacro_iff {code : List Char} :
    Nesting.closesMacro code = true ↔
      ∃ lead rest, LeadsWith code lead rest ∧ Spells lead.text "ENDM".toList := by
  have isKeyword : IsKeyword "ENDM".toList := ⟨by decide, by decide, by decide⟩
  rw [Nesting.closesMacro, startsWithKeyword_iff, isKeyword.ledBy_iff]

theorem not_closesMacro {code : List Char} (opens : Nesting.opensMacro code = true) :
    Nesting.closesMacro code = false := by
  rw [Bool.eq_false_iff]
  intro closes
  obtain ⟨lead, rest, leads, opened⟩ := opensMacro_iff.1 opens
  obtain ⟨other, _, otherLeads, closed⟩ := closesMacro_iff.1 closes
  obtain ⟨rfl, -⟩ := leads.unique otherLeads
  have same := (opened.head?_upper (by decide)).symm.trans (closed.head?_upper (by decide))
  revert same
  decide

theorem macroDepth_observe_ne_iff {nesting : Nesting} {code : List Char} :
    (nesting.observe code).macroDepth ≠ nesting.macroDepth ↔
      Nesting.opensMacro code = true ∨
        Nesting.closesMacro code = true ∧ 0 < nesting.macroDepth := by
  have depth : (nesting.observe code).macroDepth =
      Nesting.observeMacro nesting.macroDepth code := rfl
  rw [depth, Nesting.observeMacro]
  by_cases opens : Nesting.opensMacro code = true
  · simp [opens, not_closesMacro opens]
  · by_cases closes : Nesting.closesMacro code = true
    · have less : nesting.macroDepth - 1 ≠ nesting.macroDepth ↔ 0 < nesting.macroDepth := by omega
      simpa only [closes, opens, Bool.false_eq_true, ↓reduceIte, true_and, false_or] using less
    · simp [opens, closes]

end Macros

/-- Keywords and names. A variable outside a block has an equals sign after its name, or the second
name of its line is `EQU` or goes on after it with a dot, or starts with a storage width. The macro
depth changes on a line if its first name is `MACRO` or `ENDM` or goes on after one of them with a
dot. -/
theorem keywords_are_names_up_to_dot (grammar : Grammar) (lines : List (List Char)) :
    (∀ record ∈ (SymbolTable.build grammar lines).vars.records, ∀ site ∈ record.definitions,
      ¬ InBlock lines site.line →
      ∃ raw lead rest gap tail, lines[site.line]? = some raw ∧
        LeadsWith (codePart raw) lead rest ∧ LongestRun isBlank rest gap tail ∧
        (tail.head? = some '=' ∨ ∃ second, (names (codePart raw))[1]? = some second ∧
          (Spells second.text "EQU".toList ∨ StartsWithWidth second.text))) ∧
    (∀ (nesting : Nesting) code, (nesting.observe code).macroDepth ≠ nesting.macroDepth ↔
      ∃ lead, (names code)[0]? = some lead ∧ (∃ rest, LeadsWith code lead rest) ∧
        (Spells lead.text "MACRO".toList ∨
          Spells lead.text "ENDM".toList ∧ 0 < nesting.macroDepth)) := by
  refine ⟨?_, ?_⟩
  · intro record member site listed outside
    have described := SymbolTable.describes_build grammar lines
    obtain ⟨lead, ⟨raw, here, rest, gap, tail, leads, blanks, form⟩, -, -⟩ :=
      (described.tracked .var record.name site).1 ⟨record, member, rfl, listed⟩
    refine ⟨raw, lead, rest, gap, tail, here, leads, blanks, ?_⟩
    rcases form.assigned_or_keyword outside blanks with assigned | ⟨second, after, next, keyword⟩
    · exact .inl assigned
    · exact .inr ⟨_, leads.second_name next, keyword⟩
  · intro nesting code
    rw [macroDepth_observe_ne_iff, opensMacro_iff, closesMacro_iff]
    constructor
    · rintro (⟨lead, rest, leads, opened⟩ | ⟨⟨lead, rest, leads, closed⟩, open'⟩)
      · exact ⟨lead, leads.first_name, ⟨rest, leads⟩, .inl opened⟩
      · exact ⟨lead, leads.first_name, ⟨rest, leads⟩, .inr ⟨closed, open'⟩⟩
    · rintro ⟨lead, -, ⟨rest, leads⟩, opened | ⟨closed, open'⟩⟩
      · exact .inl ⟨lead, rest, leads, opened⟩
      · exact .inr ⟨⟨lead, rest, leads, closed⟩, open'⟩

theorem storage_and_macro_end_are_names :
    let lines := ["\tbuf ds.w 2 ; words".toList, "endm.loop".toList]
    let nesting : Nesting := ⟨0, 1⟩
    (∃ raw lead rest gap tail, lines[0]? = some raw ∧
      LeadsWith (codePart raw) lead rest ∧ LongestRun isBlank rest gap tail ∧
      (tail.head? = some '=' ∨ ∃ second, (names (codePart raw))[1]? = some second ∧
        (Spells second.text "EQU".toList ∨ StartsWithWidth second.text))) ∧
    ∃ lead, (names "endm.loop".toList)[0]? = some lead ∧
      (∃ rest, LeadsWith "endm.loop".toList lead rest) ∧
      (Spells lead.text "MACRO".toList ∨ Spells lead.text "ENDM".toList ∧ 0 < nesting.macroDepth)
    := by
  intro lines nesting
  have built : (SymbolTable.build z80Grammar lines).vars.records = [⟨"buf", .var, [⟨0, 1⟩]⟩] := by
    decide +kernel
  obtain ⟨recorded, counted⟩ := keywords_are_names_up_to_dot z80Grammar lines
  refine ⟨recorded ⟨"buf", .var, [⟨0, 1⟩]⟩ ?_ ⟨0, 1⟩ (List.mem_singleton_self _) (by decide), ?_⟩
  · rw [built]
    exact List.mem_singleton_self _
  · exact (counted nesting "endm.loop".toList).1 (by decide)

/-- A dot ends the keyword but not the name: `x` is recorded though the second name of its line is
no keyword, and the macro depth grows though the first name of the other line is none. -/
theorem dotted_keywords_take_effect :
    let lines := ["x EQU.y 1".toList, "MACRO.z".toList]
    (SymbolTable.build z80Grammar lines).vars.records = [⟨"x", .var, [⟨0, 0⟩]⟩] ∧
      ¬ InBlock lines 0 ∧
      LeadsWith (codePart "x EQU.y 1".toList) ⟨"x".toList, 0⟩ " EQU.y 1".toList ∧
      LongestRun isBlank " EQU.y 1".toList " ".toList "EQU.y 1".toList ∧
      names (codePart "x EQU.y 1".toList) = [⟨"x".toList, 0⟩, ⟨"EQU.y".toList, 2⟩] ∧
      upper "EQU.y".toList ∉ "EQU".toList :: storageWords ∧
      (Nesting.zero.observe "MACRO.z".toList).macroDepth = 1 ∧
      names "MACRO.z".toList = [⟨"MACRO.z".toList, 0⟩] ∧
      upper "MACRO.z".toList ∉ ["MACRO".toList, "ENDM".toList] := by
  refine ⟨by decide +kernel, by decide, lead_of?_iff.1 (by decide +kernel : Lead.of? _ =
    some ⟨0, "x".toList, " EQU.y 1".toList⟩), ⟨by decide, by decide, by decide⟩,
    by decide +kernel, by decide, by decide, by decide +kernel, by decide⟩

end AsmLint
