import AsmLint.Proofs.Literals
import AsmLint.Symbols.Table

/-! What a line introduces: a label, a variable, or a name that it only declares. Each is described
by the shape of the code, and the recognisers find exactly what is described. What a line introduces
stands before any quote, and a line never introduces a label and a variable at once. -/

namespace AsmLint

/-- The line starts, blanks aside, with the name, and `rest` follows it. -/
def LeadsWith (code : List Char) (token : Token) (rest : List Char) : Prop :=
  ∃ indent text, LongestRun isBlank code indent text ∧ indent.length = token.start ∧
    LongestRun isNameChar text token.text rest ∧ ∃ c ∈ text.head?, isNameStart c = true

def StartsWord (word text : List Char) : Prop :=
  ∃ written rest, text = written ++ rest ∧ upper written = upper word ∧
    StartsOutside isWordChar rest

def DefinesLabel (code : List Char) (token : Token) : Prop :=
  ∃ rest gap tail, LeadsWith code token rest ∧ LongestRun isBlank rest gap (':' :: tail)

def storageWords : List (List Char) := ["DS.B", "DS.W", "DS.L", "DS.D"].map String.toList

/-- What follows the name of a variable: the blanks `gap`, and then `tail`. -/
inductive VariableForm (inBlock : Prop) : (gap tail : List Char) → Prop where
  | constant {gap tail} : gap ≠ [] → StartsWord "EQU".toList tail → VariableForm inBlock gap tail
  | assigned {gap rest} : VariableForm inBlock gap ('=' :: rest)
  | storage {gap written rest} : gap ≠ [] → upper written ∈ storageWords →
      VariableForm inBlock gap (written ++ rest)
  | blockMember {gap} : inBlock → VariableForm inBlock gap []

def DefinesVariable (inBlock : Prop) (code : List Char) (token : Token) : Prop :=
  ∃ rest gap tail, LeadsWith code token rest ∧ LongestRun isBlank rest gap tail ∧
    VariableForm inBlock gap tail

def Defines (kind : SymbolKind) (inBlock : Prop) (code : List Char) (token : Token) : Prop :=
  match kind with
  | .label => DefinesLabel code token
  | .var => DefinesVariable inBlock code token

theorem Defines.leadsWith {kind : SymbolKind} {inBlock : Prop} {code : List Char} {token : Token}
    (defines : Defines kind inBlock code token) : ∃ rest, LeadsWith code token rest := by
  cases kind with
  | label =>
    obtain ⟨rest, gap, tail, leads, -⟩ := defines
    exact ⟨rest, leads⟩
  | var =>
    obtain ⟨rest, gap, tail, leads, -⟩ := defines
    exact ⟨rest, leads⟩

/-- A keyword, blanks, and the declared name. Dots at the end of the name are not part of it. -/
def Declares (isKeyword : String → Bool) (code : List Char) (token : Token) : Prop :=
  ∃ keyword rest gap dots after, LeadsWith code keyword rest ∧ isKeyword keyword.name = true ∧
    0 < gap ∧ LeadsWith rest ⟨token.text ++ dots, gap⟩ after ∧ token.text ≠ [] ∧
    EndsOutside (· == '.') token.text ∧ AllIn (· == '.') dots ∧ token.start = keyword.stop + gap

theorem outside_of_isQuote {inClass : Char → Bool} {quote : Char}
    (refused : inClass '\x22' = false ∧ inClass '\x27' = false ∧ inClass '\x60' = false)
    (quoted : isQuote quote = true) : inClass quote = false := by
  simp only [isQuote, Bool.or_eq_true, beq_iff_eq] at quoted
  rcases quoted with (rfl | rfl) | rfl
  · exact refused.1
  · exact refused.2.1
  · exact refused.2.2

theorem isBlank_of_isQuote {quote : Char} (quoted : isQuote quote = true) : isBlank quote = false :=
  outside_of_isQuote (by decide) quoted

theorem isNameChar_of_isQuote {quote : Char} (quoted : isQuote quote = true) :
    isNameChar quote = false :=
  outside_of_isQuote (by decide) quoted

theorem lead_of?_iff {code : List Char} {lead : Lead} :
    Lead.of? code = some lead ↔ LeadsWith code lead.token lead.rest := by
  obtain ⟨column, name, rest⟩ := lead
  simp only [LeadsWith, Lead.token, longestRun_iff]
  constructor
  · intro found
    refine ⟨_, _, ⟨rfl, rfl⟩, ?_⟩
    rw [Lead.of?] at found
    split at found
    · simp at found
    · rename_i c tail text
      split at found
      · rename_i start
        have nameChar := isNameStart_isNameChar start
        simp only [Option.some.injEq, Lead.mk.injEq] at found
        obtain ⟨rfl, rfl, rfl⟩ := found
        simp [text, nameChar, start]
      · simp at found
  · rintro ⟨_, _, ⟨rfl, rfl⟩, rfl, ⟨rfl, rfl⟩, c, first, start⟩
    obtain ⟨tail, text⟩ := List.head?_eq_some_iff.1 first
    have nameChar := isNameStart_isNameChar start
    simp [Lead.of?, text, start, nameChar]

theorem LeadsWith.indent_length {code rest : List Char} {token : Token}
    (leads : LeadsWith code token rest) : (code.takeWhile isBlank).length = token.start := by
  obtain ⟨indent, text, blanks, length, -⟩ := leads
  rw [blanks.takeWhile_eq, length]

theorem Lead.spaced_iff {lead : Lead} :
    lead.spaced = true ↔ lead.rest.takeWhile isBlank ≠ [] := by
  rw [Lead.spaced]
  cases lead.rest with
  | nil => simp
  | cons c rest => by_cases blank : isBlank c = true <;> simp [blank]

theorem startsWithWord_iff {word text : List Char} :
    startsWithWord word text = true ↔ StartsWord word text := by
  simp only [startsWithWord, Bool.and_eq_true, sameIgnoringCase_iff, Bool.not_eq_true',
    ← startsOutside_iff_any]
  constructor
  · rintro ⟨same, stops⟩
    exact ⟨_, _, (List.take_append_drop word.length text).symm, same, stops⟩
  · rintro ⟨written, rest, rfl, same, stops⟩
    have length : written.length = word.length := by
      rw [← length_upper written, same, length_upper]
    rw [← length, List.take_left, List.drop_left]
    exact ⟨same, stops⟩

theorem labelDefinition?_iff {code : List Char} {token : Token} :
    labelDefinition? code = some token ↔ DefinesLabel code token := by
  simp only [labelDefinition?, Option.bind_eq_some_iff, Option.map_eq_some_iff, lead_of?_iff,
    DefinesLabel, longestRun_iff]
  constructor
  · rintro ⟨lead, leads, tail, colon, rfl⟩
    refine ⟨lead.rest, _, tail, leads, rfl, ?_⟩
    simp only [Lead.afterColon?, Lead.following] at colon
    split at colon <;> simp_all
  · rintro ⟨rest, _, tail, leads, rfl, colon⟩
    exact ⟨⟨token.start, token.text, rest⟩, leads, tail,
      by simp [Lead.afterColon?, Lead.following, colon], rfl⟩

theorem mem_storageWords_iff {word : List Char} :
    word ∈ storageWords ↔ ∃ c ∈ "BWLD".toList, word = "DS.".toList ++ [c] := by
  simp [storageWords]

theorem startsWithStorage_iff {text : List Char} :
    startsWithStorage text = true ↔
      ∃ written rest, text = written ++ rest ∧ upper written ∈ storageWords := by
  have upperStem : upper "DS.".toList = "DS.".toList := by decide
  simp only [startsWithStorage, Bool.and_eq_true, sameIgnoringCase_iff, upperStem,
    Option.any_eq_true_iff_get, mem_storageWords_iff]
  constructor
  · rintro ⟨stem, some, width⟩
    obtain ⟨c, first⟩ := Option.isSome_iff_exists.1 some
    obtain ⟨rest, tail⟩ := List.head?_eq_some_iff.1 first
    refine ⟨text.take 3 ++ [c], rest, ?_, c.toUpper, ?_, ?_⟩
    · rw [List.append_assoc, List.singleton_append, ← tail, List.take_append_drop]
    · simpa [first] using width
    · rw [upper, List.map_append, ← upper, stem]
      rfl
  · rintro ⟨written, rest, rfl, width, member, same⟩
    obtain ⟨stem, last, rfl, stemUpper, lastUpper⟩ := List.map_eq_append_iff.1 same
    obtain ⟨c, rfl, rfl⟩ := List.map_eq_singleton_iff.1 lastUpper
    have length : stem.length = 3 := by
      rw [← length_upper stem, upper, stemUpper]
      rfl
    have taken : (stem ++ [c] ++ rest).take 3 = stem := by
      rw [List.append_assoc, ← length, List.take_left]
    have dropped : (stem ++ [c] ++ rest).drop 3 = c :: rest := by
      rw [List.append_assoc, ← length, List.drop_left, List.singleton_append]
    rw [taken, dropped]
    exact ⟨stemUpper, rfl, by simpa using member⟩

theorem definesVariable_iff {inBlock : Bool} {lead : Lead} :
    definesVariable inBlock lead = true ↔
      VariableForm (inBlock = true) (lead.rest.takeWhile isBlank) lead.following := by
  simp only [definesVariable, Bool.or_eq_true, Bool.and_eq_true, Lead.spaced_iff,
    startsWithWord_iff, startsWithStorage_iff, beq_iff_eq, List.isEmpty_iff]
  constructor
  · rintro (((⟨gap, word⟩ | assigned) | ⟨gap, written, rest, text, width⟩) | ⟨block, empty⟩)
    · exact .constant gap word
    · obtain ⟨rest, text⟩ := List.head?_eq_some_iff.1 assigned
      rw [text]
      exact .assigned
    · rw [text]
      exact .storage gap width
    · rw [empty]
      exact .blockMember block
  · generalize lead.following = tail
    rintro (⟨gap, word⟩ | _ | ⟨gap, width⟩ | block)
    · exact .inl (.inl (.inl ⟨gap, word⟩))
    · exact .inl (.inl (.inr rfl))
    · exact .inl (.inr ⟨gap, _, _, rfl, width⟩)
    · exact .inr ⟨block, rfl⟩

theorem variableDefinition?_iff {inBlock : Bool} {code : List Char} {token : Token} :
    variableDefinition? inBlock code = some token ↔
      DefinesVariable (inBlock = true) code token := by
  simp only [variableDefinition?, Option.bind_eq_some_iff, Option.ite_none_right_eq_some,
    Option.some.injEq, lead_of?_iff, definesVariable_iff, DefinesVariable, longestRun_iff]
  constructor
  · rintro ⟨lead, leads, form, rfl⟩
    exact ⟨lead.rest, _, _, leads, ⟨rfl, rfl⟩, form⟩
  · rintro ⟨rest, _, _, leads, ⟨rfl, rfl⟩, form⟩
    exact ⟨⟨token.start, token.text, rest⟩, leads, form, rfl⟩

def definition? (kind : SymbolKind) (inBlock : Bool) (code : List Char) : Option Token :=
  match kind with
  | .label => labelDefinition? code
  | .var => variableDefinition? inBlock code

theorem definition?_iff {kind : SymbolKind} {inBlock : Bool} {code : List Char} {token : Token} :
    definition? kind inBlock code = some token ↔ Defines kind (inBlock = true) code token := by
  cases kind with
  | label => exact labelDefinition?_iff
  | var => exact variableDefinition?_iff

theorem declaration?_iff {isKeyword : String → Bool} {code : List Char} {token : Token} :
    declaration? isKeyword code = some token ↔ Declares isKeyword code token := by
  simp only [declaration?, Option.bind_eq_some_iff, Option.ite_none_right_eq_some, lead_of?_iff,
    Bool.and_eq_true, Lead.spaced_iff]
  constructor
  · rintro ⟨lead, leads, ⟨keyword, spaced⟩, declared, next, some⟩
    split at some
    · simp at some
    · rename_i nonempty
      obtain rfl := Option.some.inj some
      obtain ⟨dots, name, allDots, ends⟩ := dropWhile_reverse_iff.1
        (rfl : dropTrailingDots declared.name = _)
      refine ⟨lead.token, lead.rest, declared.column, dots, declared.rest, leads, keyword, ?_, ?_,
        by simpa using nonempty, ends, allDots, rfl⟩
      · rw [← List.length_pos_iff, next.indent_length] at spaced
        exact spaced
      · rw [← name]
        exact next
  · rintro ⟨keyword, rest, gap, dots, after, leads, isKeyword, spaced, next, nonempty, ends,
      allDots, start⟩
    refine ⟨⟨keyword.start, keyword.text, rest⟩, leads, ⟨isKeyword, ?_⟩,
      ⟨gap, token.text ++ dots, after⟩, next, ?_⟩
    · rw [← List.length_pos_iff, next.indent_length]
      exact spaced
    · have name : dropTrailingDots (token.text ++ dots) = token.text :=
        dropWhile_reverse_iff.2 ⟨dots, rfl, allDots, ends⟩
      have column : token.start = keyword.start + keyword.text.length + gap := start
      simp [name, nonempty, ← column]

theorem LeadsWith.unique {code rest other : List Char} {token second : Token}
    (leads : LeadsWith code token rest) (again : LeadsWith code second other) :
    token = second ∧ rest = other := by
  obtain ⟨indent, text, blanks, column, name, -⟩ := leads
  obtain ⟨_, _, blanks', column', name', -⟩ := again
  rw [← blanks'.takeWhile_eq, blanks.takeWhile_eq] at column'
  rw [← blanks'.dropWhile_eq, blanks.dropWhile_eq] at name'
  have sameText : token.text = second.text := name.takeWhile_eq.symm.trans name'.takeWhile_eq
  have sameStart : token.start = second.start := column.symm.trans column'
  have sameRest : rest = other := name.dropWhile_eq.symm.trans name'.dropWhile_eq
  cases token
  cases second
  simp_all

theorem head?_eq_colon {written rest tail word : List Char} (text : ':' :: tail = written ++ rest)
    (same : upper written = word) (nonempty : word ≠ []) : word.head? = some ':' := by
  cases written with
  | nil => exact absurd same.symm nonempty
  | cons c written =>
    obtain ⟨rfl, -⟩ := List.cons.inj text
    simp [← same, upper]

theorem VariableForm.not_colon {inBlock : Prop} {gap tail : List Char} :
    ¬ VariableForm inBlock gap (':' :: tail) := by
  generalize text : ':' :: tail = start
  rintro (⟨-, written, rest, rfl, same, -⟩ | _ | ⟨-, width⟩ | _)
  · have first := head?_eq_colon text same (by decide)
    revert first
    decide
  · simp at text
  · have first := head?_eq_colon text rfl (by rintro empty; simp [empty, storageWords] at width)
    simp only [storageWords, List.map_cons, List.map_nil, List.mem_cons, List.not_mem_nil,
      or_false] at width
    rcases width with same | same | same | same <;> simp [same] at first
  · simp at text

theorem not_definesVariable_of_definesLabel {inBlock : Prop} {code : List Char}
    {token other : Token} (label : DefinesLabel code token) :
    ¬ DefinesVariable inBlock code other := by
  rintro ⟨rest, gap, tail, leads, blanks, form⟩
  obtain ⟨rest', gap', tail', leads', colon⟩ := label
  obtain ⟨-, rfl⟩ := leads.unique leads'
  rw [← blanks.dropWhile_eq, colon.dropWhile_eq] at form
  exact form.not_colon

theorem LeadsWith.plain {code rest : List Char} {token : Token}
    (leads : LeadsWith code token rest) :
    ∃ before, code = before ++ rest ∧ before.length = token.stop ∧
      AllIn (fun c => !isQuote c) before := by
  obtain ⟨indent, text, blanks, column, name, -⟩ := leads
  refine ⟨indent ++ token.text, ?_, by simp [column, Token.stop], allIn_append.2 ⟨?_, ?_⟩⟩
  · rw [blanks.split, name.split, List.append_assoc]
  · intro c member
    have refused := mt isBlank_of_isQuote (ne_false_of_eq_true (blanks.inside c member))
    simpa using refused
  · intro c member
    have refused := mt isNameChar_of_isQuote (ne_false_of_eq_true (name.inside c member))
    simpa using refused

theorem LeadsWith.starts {code rest : List Char} {token : Token}
    (leads : LeadsWith code token rest) : ∃ c ∈ token.text.head?, isNameStart c = true := by
  obtain ⟨indent, text, -, -, run, c, first, start⟩ := leads
  refine ⟨c, ?_, start⟩
  cases spelled : token.text with
  | nil =>
    have stops := run.stops c (by simpa [run.split, spelled] using first)
    simp [isNameStart_isNameChar start] at stops
  | cons d tail => simpa [run.split, spelled] using first

theorem LeadsWith.start_lt_stop {code rest : List Char} {token : Token}
    (leads : LeadsWith code token rest) : token.start < token.stop := by
  obtain ⟨c, first, -⟩ := leads.starts
  have length := List.length_pos_of_mem (List.mem_of_mem_head? first)
  simp only [Token.stop]
  omega

theorem LeadsWith.not_inLiteral {code rest : List Char} {token : Token}
    (leads : LeadsWith code token rest) (stop : Nat) : ¬ InLiteral code token.start stop := by
  obtain ⟨before, rfl, length, plain⟩ := leads.plain
  exact AsmLint.not_inLiteral plain (length ▸ leads.start_lt_stop)

theorem Declares.not_inLiteral {isKeyword : String → Bool} {code : List Char} {token : Token}
    (declares : Declares isKeyword code token) (stop : Nat) :
    ¬ InLiteral code token.start stop := by
  obtain ⟨keyword, rest, gap, dots, after, leads, -, -, next, -, -, -, start⟩ := declares
  obtain ⟨before, rfl, length, plain⟩ := leads.plain
  obtain ⟨between, rfl, length', plain'⟩ := next.plain
  have later := next.start_lt_stop
  rw [← List.append_assoc]
  apply AsmLint.not_inLiteral (allIn_append.2 ⟨plain, plain'⟩)
  rw [List.length_append, length, length', start]
  simp only at later ⊢
  omega

end AsmLint
