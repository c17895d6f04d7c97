import AsmLint.Proofs.QuotePairs

/-! Names and string literals of one line. The two scanners do not know of each other, and a name
may be part of a literal; but quotes are no name characters, so a literal neither starts nor stops
within a name. A name is in one literal as a whole or in none, and its first character tells which.
All this holds of the bytes of a line as well as of its characters. -/

namespace AsmLint

def IsRun (code : List Char) (token : Token) : Prop :=
  ∃ before after, code = before ++ token.text ++ after ∧ before.length = token.start ∧
    token.text ≠ [] ∧ AllIn isNameChar token.text ∧ EndsOutside isNameChar before ∧
    StartsOutside isNameChar after

def IsNumber (code : List Char) (token : Token) : Prop :=
  (∃ c ∈ token.text.head?, c.isDigit = true) ∨
    (0 < token.start ∧ code[token.start - 1]? = some '$' ∧ AllIn isHexDigit token.text)

def Token.Within (token : Token) (extent : Extent) : Prop :=
  extent.start ≤ token.start ∧ token.stop ≤ extent.stop

def Token.ApartFrom (token : Token) (extent : Extent) : Prop :=
  token.stop ≤ extent.start ∨ extent.stop ≤ token.start

def Token.toBytes (token : Token) (code : List Char) : Token :=
  { token with start := byteOffset code token.start }

section Runs

variable {code : List Char} {token : Token}

theorem getLast?_eq_dollar_iff {before rest : List Char} :
    before.getLast? = some '$' ↔
      0 < before.length ∧ (before ++ rest)[before.length - 1]? = some '$' := by
  rw [List.getLast?_eq_getElem?]
  cases before with
  | nil => simp
  | cons c before =>
    rw [List.getElem?_append_left (by simp)]
    simp

theorem isName_iff_isRun : IsName code token ↔ IsRun code token ∧ ¬ IsNumber code token := by
  constructor
  · rintro ⟨before, after, rfl, start, between⟩
    refine ⟨⟨before, after, rfl, start, between.nonempty, between.inside, between.begins,
      between.ends⟩, ?_⟩
    rintro (⟨c, first, digit⟩ | ⟨positive, dollar, hexadecimal⟩)
    · have refused := between.notNumber c first
      simp [digit] at refused
    · rw [← start] at positive dollar
      rw [List.append_assoc] at dollar
      exact between.notHexadecimal (getLast?_eq_dollar_iff.2 ⟨positive, dollar⟩) hexadecimal
  · rintro ⟨⟨before, after, rfl, start, nonempty, inside, begins, ends⟩, notNumber⟩
    refine ⟨before, after, rfl, start, nonempty, inside, begins, ends, ?_, ?_⟩
    · intro c first
      rw [Bool.eq_false_iff]
      intro digit
      exact notNumber (.inl ⟨c, first, digit⟩)
    · intro dollar hexadecimal
      obtain ⟨positive, here⟩ := (@getLast?_eq_dollar_iff before (token.text ++ after)).1 dollar
      rw [start, ← List.append_assoc] at here
      exact notNumber (.inr ⟨start ▸ positive, here, hexadecimal⟩)

theorem mem_names_iff_isRun : token ∈ names code ↔ IsRun code token ∧ ¬ IsNumber code token :=
  mem_names_iff.trans isName_iff_isRun

theorem IsRun.start_lt_stop (run : IsRun code token) : token.start < token.stop := by
  obtain ⟨before, after, -, -, nonempty, -⟩ := run
  have positive := List.length_pos_iff.2 nonempty
  rw [Token.stop]
  omega

theorem IsRun.isNameChar {position : Nat} {c : Char} (run : IsRun code token)
    (starts : token.start ≤ position) (stops : position < token.stop)
    (here : code[position]? = some c) : isNameChar c = true := by
  obtain ⟨before, after, rfl, start, -, inside, -⟩ := run
  rw [Token.stop] at stops
  rw [List.append_assoc, List.getElem?_append_right (by omega),
    List.getElem?_append_left (by omega)] at here
  exact inside c (List.mem_of_getElem? here)

/-- A quote is not in a run, so a stretch between quotes is around it or apart from it. -/
theorem IsRun.within_or_apart (run : IsRun code token) {extent : Extent}
    (quoted : Quoted code extent) : token.Within extent ∨ token.ApartFrom extent := by
  obtain ⟨quote, isQuote, opens, closes⟩ := quoted.quotes
  have noName := isNameChar_of_isQuote isQuote
  have width := quoted.wide
  -- Neither of the two quotes stands in the run; the rest is arithmetic.
  have opening : ¬ (token.start ≤ extent.start ∧ extent.start < token.stop) := by
    rintro ⟨starts, stops⟩
    simp [run.isNameChar starts stops opens] at noName
  have closing : ¬ (token.start ≤ extent.stop - 1 ∧ extent.stop - 1 < token.stop) := by
    rintro ⟨starts, stops⟩
    simp [run.isNameChar starts stops closes] at noName
  rw [Token.Within, Token.ApartFrom]
  omega

end Runs

section Bytes

theorem namesFrom_skip {text : List Char} (outside : AllIn (fun c => !isNameChar c) text)
    (nonempty : text ≠ []) (position : Nat) (afterDollar : Bool) (rest : List Char) :
    namesFrom position afterDollar (text ++ rest) =
      namesFrom (position + text.length) (text.getLast? == some '$') rest := by
  induction text generalizing position afterDollar with
  | nil => exact absurd rfl nonempty
  | cons c text ih =>
    obtain ⟨first, others⟩ := allIn_cons.1 outside
    rw [List.cons_append, namesFrom, if_neg (by simpa using first)]
    cases text with
    | nil => simp
    | cons d text =>
      rw [ih others (List.cons_ne_nil _ _), List.getLast?_cons_cons]
      congr 1
      simp only [List.length_cons]
      omega

theorem getLast?_ofChar_eq_dollar (c : Char) :
    ((Bytes.ofChar c).getLast? == some '$') = (c == '$') := by
  by_cases small : c.toNat < 128
  · simp [Bytes.ofChar_of_ascii small]
  · have large : 128 ≤ c.toNat := Nat.le_of_not_lt small
    have wide := Bytes.allIn_isWide_ofChar large
    have dollar : Bytes.IsAscii (· == '$') := Bytes.isAscii_beq (by decide)
    rw [dollar.outside (decide_eq_true large), beq_eq_false_iff_ne]
    intro last
    have refused := dollar.outside (wide '$' (List.mem_of_getLast? last))
    simp at refused

theorem namesFrom_view_run {c : Char} (nameChar : isNameChar c = true) (before rest : List Char)
    (afterDollar : Bool) :
    namesFrom (utf8Length before) afterDollar (Bytes.view (c :: rest)) =
      let run := c :: rest.takeWhile isNameChar
      let others := namesFrom (utf8Length (before ++ run)) false
        (Bytes.view (rest.dropWhile isNameChar))
      if c.isDigit || (afterDollar && run.all isHexDigit) then others
      else ⟨run, utf8Length before⟩ :: others := by
  have inside : AllIn isNameChar (c :: rest.takeWhile isNameChar) :=
    (longestRun_cons nameChar rest).inside
  have stop : utf8Length (before ++ c :: rest.takeWhile isNameChar) =
      utf8Length before + (c :: rest.takeWhile isNameChar).length := by
    rw [utf8Length_append, Bytes.utf8Length_of_ascii Bytes.isAscii_isNameChar inside]
  rw [Bytes.view_cons_of_ascii (Bytes.isAscii_isNameChar c nameChar), namesFrom, if_pos nameChar,
    Bytes.takeWhile_view Bytes.isAscii_isNameChar, Bytes.dropWhile_view Bytes.isAscii_isNameChar]
  dsimp only
  rw [stop]

theorem namesFrom_view (before text : List Char) (afterDollar : Bool) :
    namesFrom (utf8Length before) afterDollar (Bytes.view text) =
      (namesFrom before.length afterDollar text).map (·.toBytes (before ++ text)) := by
  generalize start : before.length = position
  fun_induction namesFrom position afterDollar text generalizing before with
  | case1 => rw [Bytes.view_nil, namesFrom, List.map_nil]
  | case2 position afterDollar c rest nameChar run others number ih =>
    have whole : before ++ run ++ rest.dropWhile isNameChar = before ++ c :: rest := by simp [run]
    have next := ih (before ++ run) (by rw [List.length_append, start])
    rw [whole] at next
    rw [namesFrom_view_run nameChar]
    dsimp only
    rw [if_pos number, next]
  | case3 position afterDollar c rest nameChar run others notNumber ih =>
    have whole : before ++ run ++ rest.dropWhile isNameChar = before ++ c :: rest := by simp [run]
    have next := ih (before ++ run) (by rw [List.length_append, start])
    rw [whole] at next
    have first : Token.toBytes ⟨run, position⟩ (before ++ c :: rest) =
        ⟨run, utf8Length before⟩ := by
      rw [Token.toBytes, ← start, byteOffset_left]
    rw [namesFrom_view_run nameChar]
    dsimp only
    rw [if_neg notNumber, next, List.map_cons, first]
  | case4 position afterDollar c rest other ih =>
    have outside := Bytes.allIn_outside_ofChar Bytes.isAscii_isNameChar (Bool.eq_false_iff.2 other)
    have nonempty : Bytes.ofChar c ≠ [] := by
      obtain ⟨byte, more, bytes, -⟩ := Bytes.exists_ofChar c
      simp [bytes]
    have next := ih (before ++ [c]) (by simp [start])
    rw [utf8Length_append, utf8Length, utf8Length, Nat.add_zero, List.append_assoc,
      List.singleton_append] at next
    rw [← next, Bytes.view_cons, namesFrom_skip outside nonempty, Bytes.length_ofChar,
      getLast?_ofChar_eq_dollar]

theorem names_view (code : List Char) :
    names (Bytes.view code) = (names code).map (·.toBytes code) := namesFrom_view [] code false

end Bytes

structure NamesAmong (text : List Char) (tokens : List Token) (extents : List Extent) : Prop where
  runs : ∀ token, token ∈ tokens ↔ IsRun text token ∧ ¬ IsNumber text token
  ordered : tokens.Pairwise fun a b => a.start < b.start ∧ a.stop ≤ b.start
  whole : ∀ token ∈ tokens, (∃! extent, extent ∈ extents ∧ token.Within extent) ∨
    ∀ extent ∈ extents, token.ApartFrom extent
  inside_iff : ∀ token ∈ tokens, token.inside extents = true ↔
    ∃ extent ∈ extents, extent.start ≤ token.start ∧ token.start < extent.stop

section Whole

variable {code : List Char} {token : Token}

theorem pairwise_starts (code : List Char) :
    (names code).Pairwise fun a b => a.start < b.start ∧ a.stop ≤ b.start := by
  apply (pairwise_names code).imp_of_mem
  intro a b member _ apart
  have width := (mem_names_iff_isRun.1 member).1.start_lt_stop
  exact ⟨by omega, apart⟩

theorem literal_unique (nonempty : token.start < token.stop) {a b : Extent}
    (memberA : a ∈ literals code) (memberB : b ∈ literals code) (withinA : token.Within a)
    (withinB : token.Within b) : a = b := by
  obtain ⟨i, boundI, rfl⟩ := List.getElem_of_mem memberA
  obtain ⟨j, boundJ, rfl⟩ := List.getElem_of_mem memberB
  have apart := List.pairwise_iff_getElem.1 (greedyPairs_literals code).pairwise
  rw [Token.Within] at withinA withinB
  rcases Nat.lt_trichotomy i j with less | rfl | greater
  · have separate := (apart i j boundI boundJ less).2
    omega
  · rfl
  · have separate := (apart j i boundJ boundI greater).2
    omega

theorem within_one_or_apart (run : IsRun code token) :
    (∃! extent, extent ∈ literals code ∧ token.Within extent) ∨
      ∀ extent ∈ literals code, token.ApartFrom extent := by
  by_cases apart : ∀ extent ∈ literals code, token.ApartFrom extent
  · exact .inr apart
  · simp only [not_forall] at apart
    obtain ⟨extent, member, touches⟩ := apart
    have within := (run.within_or_apart (quoted_of_mem_literals member)).resolve_right touches
    refine .inl ⟨extent, ⟨member, within⟩, ?_⟩
    rintro other ⟨otherMember, otherWithin⟩
    exact literal_unique run.start_lt_stop otherMember member otherWithin within

theorem inside_iff_first (run : IsRun code token) :
    token.inside (literals code) = true ↔
      ∃ extent ∈ literals code, extent.start ≤ token.start ∧ token.start < extent.stop := by
  have width := run.start_lt_stop
  rw [inside_literals_iff, InLiteral]
  refine exists_congr fun extent => and_congr_right fun member => ?_
  have place := run.within_or_apart (quoted_of_mem_literals member)
  rw [Token.Within, Token.ApartFrom] at place
  omega

end Whole

theorem namesAmong_literals (code : List Char) : NamesAmong code (names code) (literals code) where
  runs _ := mem_names_iff_isRun
  ordered := pairwise_starts code
  whole _ member := within_one_or_apart (mem_names_iff_isRun.1 member).1
  inside_iff _ member := inside_iff_first (mem_names_iff_isRun.1 member).1

/-- A name is in one literal as a whole or apart from them all, in characters and in bytes. -/
theorem names_whole_among_literals (code : List Char) :
    NamesAmong code (names code) (literals code) ∧
      NamesAmong (Bytes.view code) ((names code).map (·.toBytes code))
        ((literals code).map (·.toBytes code)) := by
  refine ⟨namesAmong_literals code, ?_⟩
  rw [← names_view, ← Bytes.literals_view]
  exact namesAmong_literals (Bytes.view code)

end AsmLint
