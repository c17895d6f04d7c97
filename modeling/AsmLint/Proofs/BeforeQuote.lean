import AsmLint.Proofs.SymbolTable

/-! What a line introduces is decided before its quotes. Each recogniser gives the same answer for a
line that goes on after a quote as for the part before the quote alone, so the symbol table does not
depend on what follows a quote, braces aside. -/

namespace AsmLint

theorem ne_of_isQuote {quote c : Char} (quoted : isQuote quote = true) (other : isQuote c = false) :
    quote ≠ c := by
  rintro rfl
  simp [other] at quoted

section Words

variable {quote : Char} {text written rest more : List Char}

theorem toUpper_quote (quoted : isQuote quote = true) : isQuote quote.toUpper = true := by
  rw [← Bool.not_eq_false']
  exact @outside_of_isQuote (fun c => !isQuote c.toUpper) quote (by decide) quoted

theorem exists_split_before_quote (quoted : isQuote quote = true)
    (plain : AllIn (fun c => !isQuote c) (upper written))
    (split : text ++ quote :: more = written ++ rest) :
    ∃ middle, text = written ++ middle ∧ rest = middle ++ quote :: more := by
  rcases List.append_eq_append_iff.1 split with ⟨inner, rfl, tail⟩ | ⟨middle, rfl, tail⟩
  · cases inner with
    | nil => exact ⟨[], by simp, tail.symm⟩
    | cons c inner =>
      obtain ⟨rfl, -⟩ := List.cons.inj tail
      have refused := plain quote.toUpper (by simp [upper])
      simp [toUpper_quote quoted] at refused
  · exact ⟨middle, rfl, tail⟩

theorem startsWithWord_before_quote (quoted : isQuote quote = true) {word : List Char}
    (plain : AllIn (fun c => !isQuote c) (upper word)) :
    startsWithWord word (text ++ quote :: more) = startsWithWord word text := by
  rw [Bool.eq_iff_iff, startsWithWord_iff, startsWithWord_iff]
  constructor
  · rintro ⟨written, rest, split, same, stops⟩
    obtain ⟨middle, rfl, rfl⟩ := exists_split_before_quote quoted (same ▸ plain) split
    refine ⟨written, middle, rfl, same, fun c first => stops c ?_⟩
    rw [List.head?_append, Option.mem_def.1 first, Option.some_or]
    rfl
  · rintro ⟨written, rest, rfl, same, stops⟩
    refine ⟨written, rest ++ quote :: more, List.append_assoc .., same, ?_⟩
    cases rest with
    | nil => exact startsOutside_cons.2 (outside_of_isQuote (by decide) quoted)
    | cons c rest => exact startsOutside_cons.2 (startsOutside_cons.1 stops)

theorem startsWithStorage_before_quote (quoted : isQuote quote = true) :
    startsWithStorage (text ++ quote :: more) = startsWithStorage text := by
  have plain : ∀ word ∈ storageWords, AllIn (fun c => !isQuote c) word := by
    decide
  rw [Bool.eq_iff_iff, startsWithStorage_iff, startsWithStorage_iff]
  constructor
  · rintro ⟨written, rest, split, storage⟩
    obtain ⟨middle, rfl, -⟩ := exists_split_before_quote quoted (plain _ storage) split
    exact ⟨written, middle, rfl, storage⟩
  · rintro ⟨written, rest, rfl, storage⟩
    exact ⟨written, rest ++ quote :: more, List.append_assoc .., storage⟩

theorem startsWithKeyword_before_quote (quoted : isQuote quote = true) {keyword : List Char}
    (plain : AllIn (fun c => !isQuote c) (upper keyword)) :
    startsWithKeyword keyword (text ++ quote :: more) = startsWithKeyword keyword text := by
  have blanks := (longestRun_takeWhile isBlank text).extend (isBlank_of_isQuote quoted) more
  rw [startsWithKeyword, blanks.dropWhile_eq, startsWithWord_before_quote quoted plain,
    startsWithKeyword]

end Words

namespace Lead

def continued (lead : Lead) (more : List Char) : Lead := { lead with rest := lead.rest ++ more }

variable {quote : Char} {lead : Lead} {code more : List Char}

theorem of?_before_quote (quoted : isQuote quote = true) :
    of? (code ++ quote :: more) = (of? code).map (continued · (quote :: more)) := by
  have noStart : isNameStart quote = false := outside_of_isQuote (by decide) quoted
  have blanks := (longestRun_takeWhile isBlank code).extend (isBlank_of_isQuote quoted) more
  rw [of?, of?, blanks.dropWhile_eq, blanks.takeWhile_eq]
  cases code.dropWhile isBlank with
  | nil => simp [noStart]
  | cons c rest =>
    have run := (longestRun_takeWhile isNameChar rest).extend (isNameChar_of_isQuote quoted) more
    by_cases start : isNameStart c = true
    · simp [start, run.takeWhile_eq, run.dropWhile_eq, continued]
    · simp [start]

theorem following_continued (quoted : isQuote quote = true) :
    (lead.continued (quote :: more)).following = lead.following ++ quote :: more := by
  have blanks := (longestRun_takeWhile isBlank lead.rest).extend (isBlank_of_isQuote quoted) more
  exact blanks.dropWhile_eq

theorem spaced_continued (quoted : isQuote quote = true) :
    (lead.continued (quote :: more)).spaced = lead.spaced := by
  rw [spaced, spaced, continued]
  cases lead.rest with
  | nil => simp [isBlank_of_isQuote quoted]
  | cons c rest => rfl

theorem afterColon?_continued (quoted : isQuote quote = true) :
    (lead.continued (quote :: more)).afterColon? =
      lead.afterColon?.map (· ++ quote :: more) := by
  have noColon : quote ≠ ':' := ne_of_isQuote quoted (by decide)
  rw [afterColon?, afterColon?, following_continued quoted]
  cases lead.following with
  | nil => simp_all
  | cons c rest => by_cases colon : c = ':' <;> simp [colon]

/-- Nothing stands after a member of a block, so a line with a quote is none. -/
theorem definesVariable_continued (quoted : isQuote quote = true) (inBlock : Bool) :
    definesVariable inBlock (lead.continued (quote :: more)) = definesVariable false lead := by
  have noEquals : quote ≠ '=' := ne_of_isQuote quoted (by decide)
  have assigned : ((lead.following ++ quote :: more).head? == some '=') =
      (lead.following.head? == some '=') := by
    cases lead.following <;> simp_all
  rw [definesVariable, definesVariable, spaced_continued quoted, following_continued quoted,
    startsWithWord_before_quote quoted (by decide),
    startsWithStorage_before_quote quoted, assigned]
  simp

end Lead

section Line

variable {quote : Char} {code more : List Char}

theorem definition?_before_quote (quoted : isQuote quote = true) (kind : SymbolKind)
    (inBlock : Bool) :
    definition? kind inBlock (code ++ quote :: more) = definition? kind false code := by
  cases kind with
  | label =>
    rw [definition?, definition?, labelDefinition?, labelDefinition?,
      Lead.of?_before_quote quoted, Option.bind_map]
    apply Option.bind_congr
    intro lead _
    rw [Function.comp, Lead.afterColon?_continued quoted, Option.map_map]
    rfl
  | var =>
    rw [definition?, definition?, variableDefinition?, variableDefinition?,
      Lead.of?_before_quote quoted, Option.bind_map]
    apply Option.bind_congr
    intro lead _
    rw [Function.comp, Lead.definesVariable_continued quoted]
    rfl

theorem declaration?_before_quote (quoted : isQuote quote = true) (isKeyword : String → Bool) :
    declaration? isKeyword (code ++ quote :: more) = declaration? isKeyword code := by
  rw [declaration?, declaration?, Lead.of?_before_quote quoted, Option.bind_map]
  apply Option.bind_congr
  intro lead _
  rw [Function.comp, Lead.spaced_continued quoted, Lead.continued,
    Lead.of?_before_quote quoted, Option.bind_map]
  rfl

theorem observeMacro_before_quote (quoted : isQuote quote = true) (depth : Nat) :
    Nesting.observeMacro depth (code ++ quote :: more) = Nesting.observeMacro depth code := by
  rw [Nesting.observeMacro, Nesting.observeMacro, Nesting.opensMacro, Nesting.closesMacro,
    startsWithKeyword_before_quote quoted (by decide),
    startsWithKeyword_before_quote quoted (by decide)]
  rfl

theorem observe_congr_before_quote {raw other tail : List Char} (quoted : isQuote quote = true)
    (here : codePart raw = code ++ quote :: more) (there : codePart other = code ++ quote :: tail)
    (opens : more.count '\x7b' = tail.count '\x7b') (closes : more.count '\x7d' = tail.count '\x7d')
    (grammar : Grammar) (table : SymbolTable) (line : Nat) :
    SymbolTable.observe grammar table line raw = SymbolTable.observe grammar table line other := by
  have nesting : table.nesting.observe (code ++ quote :: more) =
      table.nesting.observe (code ++ quote :: tail) := by
    simp only [Nesting.observe, observeMacro_before_quote quoted, Nesting.foldl_observeBrace,
      List.count_append, List.count_cons, opens, closes]
  rw [SymbolTable.observe_eq, SymbolTable.observe_eq, here, there, nesting]
  simp only [definition?_before_quote quoted, declaration?_before_quote quoted]

end Line

end AsmLint
