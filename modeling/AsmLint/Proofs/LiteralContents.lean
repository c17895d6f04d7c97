import AsmLint.Dialect
import AsmLint.Proofs.BeforeQuote
import AsmLint.Proofs.Duplicates
import AsmLint.Proofs.SymbolAnalysis

/-! The contents of string literals. When what stands between the quotes of a literal is replaced by
other text of the same length, the scanner for literals finds its way back, the names outside
literals are the same ones, and so is everything that is reported about symbols. -/

namespace AsmLint

section Closing

variable {quote c : Char} {before text other : List Char}

/-- Up to a character that is no backslash, a search has come to its end or else goes on right after
that character. -/
theorem closing_through (quote : Char) (before : List Char) (plain : c ≠ '\x5c') :
    (∃ size, ∀ rest, closing quote (before ++ c :: rest) = some size) ∨
      ∀ rest, closing quote (before ++ c :: rest) =
        (closing quote rest).map (· + (before.length + 1)) := by
  fun_induction closing quote before with
  | case1 =>
    by_cases same : c = quote
    · exact .inl ⟨1, fun rest => by rw [List.nil_append, closing_plain plain, if_pos same]⟩
    · exact .inr fun rest => by rw [List.nil_append, closing_plain plain, if_neg same]; rfl
  | case2 => exact .inr fun rest => closing_escaped quote c rest
  | case3 d before ih =>
    have step (rest : List Char) : closing quote ('\x5c' :: d :: before ++ c :: rest) =
        (closing quote (before ++ c :: rest)).map (· + 2) := closing_escaped ..
    rcases ih with ⟨size, closed⟩ | through
    · exact .inl ⟨size + 2, fun rest => by rw [step, closed, Option.map_some]⟩
    · exact .inr fun rest => by rw [step, through, Option.map_map]; rfl
  | case4 before notLast notEscaped =>
    refine .inl ⟨1, fun rest => ?_⟩
    rw [List.cons_append, closing_plain (ne_backslash notLast notEscaped), if_pos rfl]
  | case5 d before notLast notEscaped different ih =>
    have step (rest : List Char) : closing quote (d :: before ++ c :: rest) =
        (closing quote (before ++ c :: rest)).map (· + 1) := by
      rw [List.cons_append, closing_plain (ne_backslash notLast notEscaped), if_neg different]
    rcases ih with ⟨size, closed⟩ | through
    · exact .inl ⟨size + 1, fun rest => by rw [step, closed, Option.map_some]⟩
    · exact .inr fun rest => by rw [step, through, Option.map_map]; rfl

theorem closing_of_short {size : Nat} (plain : c ≠ '\x5c')
    (closes : closing quote (before ++ c :: text) = some size) (short : size ≤ before.length)
    (other : List Char) : closing quote (before ++ c :: other) = some size := by
  rcases closing_through quote before plain with ⟨_, closed⟩ | through
  · rw [closed other, ← closed text, closes]
  · rw [through] at closes
    obtain ⟨inner, -, rfl⟩ := Option.map_eq_some_iff.1 closes
    omega

theorem closing_of_unclosed (plain : c ≠ '\x5c')
    (unclosed : closing quote (before ++ c :: text) = none)
    (alike : closing quote text = none → closing quote other = none) :
    closing quote (before ++ c :: other) = none := by
  rcases closing_through quote before plain with ⟨size, closed⟩ | through
  · simp [closed] at unclosed
  · rw [through, Option.map_eq_none_iff] at unclosed ⊢
    exact alike unclosed

end Closing

section Scan

variable {quote : Char} {text other : List Char}

/-- After the opening quote both texts close at one place and go on alike there, and a quote that
finds no partner in the first finds none in the second. -/
structure ClosesAlike (quote : Char) (text other : List Char) : Prop where
  closed : ∃ size, closing quote text = some size ∧ closing quote other = some size ∧
    text.drop size = other.drop size
  unclosed : ∀ c, isQuote c = true → closing c text = none → closing c other = none

theorem literalsFrom_closed {size : Nat} (position : Nat) (quoted : isQuote quote = true)
    (closes : closing quote text = some size) :
    literalsFrom position (quote :: text) =
      ⟨position, position + 1 + size⟩ ::
        literalsFrom (position + 1 + size) (text.drop size) := by
  rw [literalsFrom, if_pos quoted, closes]

theorem literalsFrom_unclosed {c : Char} (position : Nat)
    (unclosed : isQuote c = true → closing c text = none) :
    literalsFrom position (c :: text) = literalsFrom (position + 1) text := by
  rw [literalsFrom]
  split
  · rename_i quoted
    rw [unclosed quoted]
  · rfl

theorem literalsFrom_congr (quoted : isQuote quote = true) (alike : ClosesAlike quote text other)
    {position : Nat} {before : List Char} {literal : Extent}
    (member : literal ∈ literalsFrom position (before ++ quote :: text))
    (start : literal.start = position + before.length) :
    literalsFrom position (before ++ quote :: other) =
      literalsFrom position (before ++ quote :: text) := by
  have plain : quote ≠ '\x5c' := ne_of_isQuote quoted (by decide)
  cases before with
  | nil =>
    obtain ⟨size, closes, closesOther, follows⟩ := alike.closed
    rw [List.nil_append, List.nil_append, literalsFrom_closed _ quoted closes,
      literalsFrom_closed _ quoted closesOther, follows]
  | cons c before =>
    rw [List.length_cons] at start
    rw [List.cons_append] at member ⊢
    rw [List.cons_append]
    by_cases unclosed : isQuote c = true → closing c (before ++ quote :: text) = none
    · have unclosedOther : isQuote c = true → closing c (before ++ quote :: other) = none := by
        intro quoted'
        exact closing_of_unclosed plain (unclosed quoted') (alike.unclosed c quoted')
      rw [literalsFrom_unclosed _ unclosed] at member ⊢
      rw [literalsFrom_unclosed _ unclosedOther]
      exact literalsFrom_congr quoted alike member (by omega)
    · obtain ⟨quoted', closed⟩ := Classical.not_imp.1 unclosed
      obtain ⟨size, closes⟩ := Option.ne_none_iff_exists'.1 closed
      rw [literalsFrom_closed _ quoted' closes] at member ⊢
      -- A literal that starts here ends before the one in question, which is found after it.
      have later : literal ∈ literalsFrom (position + 1 + size)
          ((before ++ quote :: text).drop size) := by
        rcases List.mem_cons.1 member with rfl | member
        · dsimp only at start
          omega
        · exact member
      have short : size ≤ before.length := by
        obtain ⟨_, _, _, _, -, -, -, rfl⟩ := mem_literalsFrom later
        dsimp only at start
        omega
      rw [literalsFrom_closed _ quoted' (closing_of_short plain closes short other)]
      rw [List.drop_append_of_le_length short] at later ⊢
      rw [List.drop_append_of_le_length short, literalsFrom_congr quoted alike later]
      rw [List.length_drop]
      omega
termination_by before.length

end Scan

section Inert

def isBrace (c : Char) : Bool := c == '\x7b' || c == '\x7d'

def isInert (c : Char) : Bool := !isQuote c && c != '\x5c' && !isCommentMarker c && !isBrace c

variable {quote : Char} {before body after content : List Char}

theorem isInert_iff {c : Char} : isInert c = true ↔
    isQuote c = false ∧ c ≠ '\x5c' ∧ isCommentMarker c = false ∧ isBrace c = false := by
  simp [isInert, and_assoc]

theorem closing_append (quoted : isQuote quote = true) (inert : AllIn isInert content)
    (rest : List Char) :
    closing quote (content ++ rest) = (closing quote rest).map (· + content.length) := by
  induction content with
  | nil => simp
  | cons c content ih =>
    obtain ⟨first, others⟩ := allIn_cons.1 inert
    obtain ⟨notQuote, plain, -⟩ := isInert_iff.1 first
    rw [List.cons_append, closing_plain plain, if_neg (ne_of_isQuote quoted notQuote).symm,
      ih others, Option.map_map]
    rfl

theorem closesAlike_of_inert (quoted : isQuote quote = true)
    (closes : closing quote (body ++ quote :: after) = some (body.length + 1))
    (inert : AllIn isInert content) (length : content.length = body.length) :
    ClosesAlike quote (body ++ quote :: after) (content ++ quote :: after) where
  closed := by
    refine ⟨body.length + 1, closes, ?_, ?_⟩
    · rw [closing_append quoted inert, closing_plain (ne_of_isQuote quoted (by decide)),
        if_pos rfl, Option.map_some, length, Nat.add_comm]
    · rw [← List.drop_drop, List.drop_left, ← List.drop_drop, ← length, List.drop_left]
  unclosed := by
    intro c quoted' unclosed
    obtain ⟨body', after', split, size, passes⟩ := closing_eq_some closes
    obtain ⟨rfl, rest⟩ := List.append_inj split (by omega)
    rw [closing_append quoted' inert, Option.map_eq_none_iff, rest]
    exact passes c unclosed

theorem undefinedNames_around (quoted : isQuote quote = true)
    (member : ⟨before.length, before.length + body.length + 2⟩ ∈
      literals (before ++ quote :: (body ++ quote :: after)))
    (grammar : Grammar) (symbols : SymbolTable) :
    undefinedNames grammar symbols (before ++ quote :: (body ++ quote :: after)) =
      (names before ++ namesFrom (before.length + body.length + 2) false after).filter fun token =>
        !token.inside (literals (before ++ quote :: (body ++ quote :: after))) &&
          !isResolved grammar symbols token.name := by
  have noName := isNameChar_of_isQuote quoted
  have noDollar : (quote == '$') = false :=
    beq_eq_false_iff_ne.2 (ne_of_isQuote quoted (by decide))
  have split : names (before ++ quote :: (body ++ quote :: after)) =
      names before ++ (namesFrom (before.length + 1) false body ++
        namesFrom (before.length + body.length + 2) false after) := by
    rw [names, namesFrom_append noName, namesFrom_append noName, noDollar, names]
    congr 3 <;> omega
  have passed (keep : Token → Bool) :
      (namesFrom (before.length + 1) false body).filter (fun token =>
        !token.inside (literals (before ++ quote :: (body ++ quote :: after))) && keep token) =
      [] := by
    rw [List.filter_eq_nil_iff]
    intro token name
    have within := namesFrom_within name
    have inside : token.inside (literals (before ++ quote :: (body ++ quote :: after))) = true :=
      inside_literals_iff.2 ⟨_, member, by dsimp only; omega, by dsimp only; omega⟩
    simp [inside]
  rw [undefinedNames, split, List.filter_append, List.filter_append, List.filter_append,
    passed fun token => !isResolved grammar symbols token.name, List.nil_append]

theorem count_brace_eq_zero {text : List Char} (unbraced : AllIn (fun c => !isBrace c) text)
    {brace : Char} (isBrace : isBrace brace = true) : text.count brace = 0 := by
  rw [List.count_eq_zero]
  intro member
  have refused := unbraced brace member
  simp [isBrace] at refused

theorem sameNames_of_codes {raw other : List Char} (grammar : Grammar)
    (quoted : isQuote quote = true)
    (closes : closing quote (body ++ quote :: after) = some (body.length + 1))
    (code : codePart raw = before ++ quote :: (body ++ quote :: after))
    (codeOther : codePart other = before ++ quote :: (content ++ quote :: after))
    (found : ⟨before.length, before.length + body.length + 2⟩ ∈ literals (codePart raw))
    (unbraced : AllIn (fun c => !isBrace c) body) (inert : AllIn isInert content)
    (length : content.length = body.length) : SameNames grammar other raw := by
  rw [code] at found
  have alike := closesAlike_of_inert quoted closes inert length
  have same : literals (before ++ quote :: (content ++ quote :: after)) =
      literals (before ++ quote :: (body ++ quote :: after)) :=
    literalsFrom_congr quoted alike found (Nat.zero_add _).symm
  have unbracedContent : AllIn (fun c => !isBrace c) content := by
    intro c member
    simp [isInert_iff.1 (inert c member)]
  have counts {brace : Char} (isBrace : isBrace brace = true) :
      (content ++ quote :: after).count brace = (body ++ quote :: after).count brace := by
    rw [List.count_append, List.count_append, count_brace_eq_zero unbraced isBrace,
      count_brace_eq_zero unbracedContent isBrace]
  refine ⟨?_, ?_⟩
  · exact observe_congr_before_quote quoted codeOther code (counts (by decide))
      (counts (by decide)) grammar
  · intro symbols
    rw [codeOther, code, undefinedNames_around quoted found, undefinedNames_around quoted, same,
      length]
    rw [same, length]
    exact found

end Inert

def Extent.content (literal : Extent) : Extent := ⟨literal.start + 1, literal.stop - 1⟩

def Extent.replace (extent : Extent) (text new : List Char) : List Char :=
  text.take extent.start ++ new ++ text.drop extent.stop

section Replacement

variable {literal : Extent} {raw content : List Char}

theorem exists_split_of_mem_literals (found : literal ∈ literals (codePart raw)) :
    ∃ before quote body after, codePart raw = before ++ quote :: (body ++ quote :: after) ∧
      literal = ⟨before.length, before.length + body.length + 2⟩ ∧ isQuote quote = true ∧
      closing quote (body ++ quote :: after) = some (body.length + 1) := by
  obtain ⟨before, quote, rest, size, code, quoted, closes, rfl⟩ := mem_literalsFrom found
  obtain ⟨body, after, rfl, rfl, -⟩ := closing_eq_some closes
  refine ⟨before, quote, body, after, code, ?_, quoted, closes⟩
  rw [Extent.mk.injEq]
  omega

theorem slice_content (before : List Char) (quote : Char) (body rest : List Char) :
    (Extent.content ⟨before.length, before.length + body.length + 2⟩).slice
      (before ++ quote :: (body ++ rest)) = body := by
  have middle := slice_middle (before ++ [quote]) body rest
  simpa [Extent.content, Nat.add_right_comm] using middle

theorem replace_content (before : List Char) (quote : Char) (body rest new : List Char) :
    (Extent.content ⟨before.length, before.length + body.length + 2⟩).replace
      (before ++ quote :: (body ++ rest)) new = before ++ quote :: (new ++ rest) := by
  have kept : (before ++ quote :: (body ++ rest)).take (before.length + 1) = before ++ [quote] := by
    rw [List.take_length_add_append, List.take_succ_cons, List.take_zero]
  have stop : before.length + body.length + 2 - 1 = before.length + (body.length + 1) := by omega
  have remaining : (before ++ quote :: (body ++ rest)).drop (before.length + (body.length + 1)) =
      rest := by
    rw [List.drop_length_add_append, List.drop_succ_cons, List.drop_left]
  simp only [Extent.replace, Extent.content, kept, stop, remaining, List.append_assoc,
    List.cons_append, List.nil_append]

theorem codePart_replace {before body after comment : List Char} {quote : Char}
    (line : LongestRun (fun c => !isCommentMarker c) raw
      (before ++ quote :: (body ++ quote :: after)) comment)
    (inert : AllIn isInert content) :
    codePart ((Extent.content ⟨before.length, before.length + body.length + 2⟩).replace raw content)
      = before ++ quote :: (content ++ quote :: after) := by
  have noMarker : AllIn (fun c => !isCommentMarker c) content := by
    intro c member
    simp [isInert_iff.1 (inert c member)]
  have inside := line.inside
  simp only [allIn_append, allIn_cons] at inside
  have split : raw = before ++ quote :: (body ++ quote :: (after ++ comment)) := by
    simpa using line.split
  rw [split, replace_content]
  have replaced : LongestRun (fun c => !isCommentMarker c)
      (before ++ quote :: (content ++ quote :: (after ++ comment)))
      (before ++ quote :: (content ++ quote :: after)) comment := {
    split := by simp
    inside := by
      simp only [allIn_append, allIn_cons]
      exact ⟨inside.1, inside.2.1, noMarker, inside.2.2.2⟩
    stops := line.stops }
  exact replaced.takeWhile_eq

end Replacement

/-- What is reported about symbols does not depend on the contents of string literals: they can be
replaced by any inert text of the same length as long as no braces are lost. -/
theorem symbols_ignore_literal_contents (grammar : Grammar) (above below : List (List Char))
    {raw content : List Char} {literal : Extent} (found : literal ∈ literals (codePart raw))
    (unbraced : AllIn (fun c => !isBrace c) (literal.content.slice raw))
    (inert : AllIn isInert content) (length : content.length = literal.content.length) :
    SameSymbols (validateLines grammar (above ++ literal.content.replace raw content :: below))
      (validateLines grammar (above ++ raw :: below)) := by
  obtain ⟨before, quote, body, after, code, rfl, quoted, closes⟩ :=
    exists_split_of_mem_literals found
  have line := longestRun_takeWhile (fun c => !isCommentMarker c) raw
  rw [← codePart, code] at line
  have between : (Extent.content ⟨before.length, before.length + body.length + 2⟩).slice raw =
      body := by
    rw [line.split, List.append_assoc, List.cons_append, List.append_assoc, slice_content]
  have size : content.length = body.length := by
    simp only [length, Extent.length, Extent.content]
    omega
  apply sameSymbols_of_line
  exact sameNames_of_codes grammar quoted closes code (codePart_replace line inert) found
    (between ▸ unbraced) inert size

/-- An unmatched quote before the literal, an escaped quote in it and a comment after it do not
matter, and neither does the name that comes to stand in it. -/
theorem symbols_ignore_escaped_quote :
    SameSymbols
      (validateLines z80Grammar ["AF' DB \"LOOP\", X ; note".toList, "END".toList])
      (validateLines z80Grammar ["AF' DB \"a\\\"b\", X ; note".toList, "END".toList]) := by
  have found : (⟨7, 13⟩ : Extent) ∈ literals (codePart "AF' DB \"a\\\"b\", X ; note".toList) := by
    simp [codePart, isCommentMarker, literals, literalsFrom, closing, isQuote]
  have replaced : (Extent.content ⟨7, 13⟩).replace "AF' DB \"a\\\"b\", X ; note".toList
      "LOOP".toList = "AF' DB \"LOOP\", X ; note".toList := by decide
  have same := symbols_ignore_literal_contents z80Grammar [] ["END".toList] found (by decide)
    (by decide : AllIn isInert "LOOP".toList) (by decide)
  rw [replaced] at same
  exact same

end AsmLint
