import AsmLint.Proofs.ByteText
import AsmLint.Proofs.ResolvedNames

/-! The scans of a line by its bytes. String literals, the name that leads a line and its mnemonic
are looked for among the bytes by the scanners themselves; what they find there are the byte offsets
of what they find among the characters. A backslash takes one byte with it, not one character: the
bytes that are left of a longer character are wide, and no scanner stops at them. -/

namespace AsmLint

def Lead.bytes (lead : Lead) : Lead := { lead with rest := Bytes.view lead.rest }

def Instruction.bytes (instruction : Instruction) : Instruction :=
  { instruction with rest := Bytes.view instruction.rest }

namespace Bytes

section Literals

variable {quote : Char}

theorem closing_wide (small : quote.toNat < 128) {wide : List Char} (allWide : AllIn isWide wide)
    (rest : List Char) :
    closing quote (wide ++ rest) = (closing quote rest).map (· + wide.length) := by
  induction wide with
  | nil => simp
  | cons byte wide ih =>
    obtain ⟨first, others⟩ := allIn_cons.1 allWide
    have different : byte ≠ quote := ne_of_beq_false ((isAscii_beq small).outside first)
    have plain : byte ≠ '\x5c' := ne_of_beq_false ((isAscii_beq (by decide)).outside first)
    rw [List.cons_append, closing_plain plain, if_neg different, ih others, Option.map_map]
    rfl

/-- The closing quote is at the same place among the bytes, although an escape takes one byte. -/
theorem closing_view (small : quote.toNat < 128) (text : List Char) :
    closing quote (view text) = (closing quote text).map (byteOffset text) := by
  fun_induction closing quote text with
  | case1 => rfl
  | case2 => rfl
  | case3 c rest ih =>
    -- The escape takes the first byte of `c` alone; those it leaves are neither quote nor
    -- backslash.
    obtain ⟨byte, more, bytes, size, wide, -⟩ := exists_ofChar c
    have backslash : '\x5c'.utf8Size = 1 := rfl
    rw [view_cons_of_ascii (by decide), view_cons, bytes, List.cons_append, closing_escaped,
      closing_wide small wide, ih, Option.map_map, Option.map_map, Option.map_map]
    congr 1
    funext inner
    simp only [Function.comp, byteOffset_cons, backslash, size]
    omega
  | case4 rest notLast notEscaped =>
    have first : byteOffset (quote :: rest) 1 = 1 := by
      rw [byteOffset_cons, utf8Size_of_ascii small, byteOffset, List.take_zero, utf8Length]
    rw [view_cons_of_ascii small, closing_plain (ne_backslash notLast notEscaped), if_pos rfl,
      Option.map_some, first]
  | case5 c rest notLast notEscaped different ih =>
    obtain ⟨byte, more, bytes, size, wide, same⟩ := exists_ofChar c
    have plain : byte ≠ '\x5c' := by
      apply ne_of_beq_false
      rw [same (· == '\x5c') (isAscii_beq (by decide))]
      exact beq_false_of_ne (ne_backslash notLast notEscaped)
    have other : byte ≠ quote := by
      apply ne_of_beq_false
      rw [same (· == quote) (isAscii_beq small)]
      exact beq_false_of_ne different
    rw [view_cons, bytes, List.cons_append, closing_plain plain, if_neg other,
      closing_wide small wide, ih, Option.map_map, Option.map_map, Option.map_map]
    congr 1
    funext inner
    simp only [Function.comp, byteOffset_cons, size]
    omega

theorem literalsFrom_view (before text : List Char) :
    literalsFrom (utf8Length before) (view text) =
      (literalsFrom before.length text).map (·.toBytes (before ++ text)) := by
  generalize start : before.length = position
  fun_induction literalsFrom position text generalizing before with
  | case1 => rw [view_nil, literalsFrom, List.map_nil]
  | case2 position c rest quote size closes ih =>
    have small := isAscii_isQuote c quote
    obtain ⟨body, after, split, length, -⟩ := closing_eq_some closes
    have bound : size ≤ rest.length := by
      rw [split, length, List.length_append, List.length_cons]
      omega
    have next := ih (before ++ c :: rest.take size) (by simp [bound, ← start]; omega)
    have whole : before ++ c :: rest.take size ++ rest.drop size = before ++ c :: rest := by simp
    have stops : utf8Length (before ++ c :: rest.take size) =
        utf8Length before + 1 + byteOffset rest size := by
      rw [utf8Length_append, utf8Length, utf8Size_of_ascii small, ← byteOffset, Nat.add_assoc]
    rw [whole, stops] at next
    have found : literalsFrom (utf8Length before) (view (c :: rest)) =
        ⟨utf8Length before, utf8Length before + 1 + byteOffset rest size⟩ ::
          literalsFrom (utf8Length before + 1 + byteOffset rest size) (view (rest.drop size)) := by
      rw [view_cons_of_ascii small, literalsFrom, if_pos quote, closing_view small, closes,
        Option.map_some]
      dsimp only
      rw [drop_view]
    have first : Extent.toBytes ⟨position, position + 1 + size⟩ (before ++ c :: rest) =
        ⟨utf8Length before, utf8Length before + 1 + byteOffset rest size⟩ := by
      have stop := byteOffset_append before (c :: rest) (size + 1)
      rw [byteOffset_cons, utf8Size_of_ascii small] at stop
      have columns : position + 1 + size = before.length + (size + 1) := by omega
      rw [Extent.toBytes, columns, stop, ← start, byteOffset_left, Nat.add_assoc]
    rw [found, next, List.map_cons, first]
  | case3 position c rest quote unclosed ih =>
    have small := isAscii_isQuote c quote
    have next := ih (before ++ [c]) (by simp [start])
    rw [utf8Length_append, utf8Length, utf8Length, utf8Size_of_ascii small, List.append_assoc,
      List.singleton_append] at next
    rw [← next, view_cons_of_ascii small, literalsFrom, if_pos quote, closing_view small, unclosed]
    rfl
  | case4 position c rest plain ih =>
    have next := ih (before ++ [c]) (by simp [start])
    rw [utf8Length_append, utf8Length, utf8Length, Nat.add_zero, List.append_assoc,
      List.singleton_append] at next
    rw [← next, view_cons, literalsFrom_append, length_ofChar]
    exact allIn_outside_ofChar isAscii_isQuote (Bool.eq_false_iff.2 plain)

theorem literals_view (code : List Char) :
    literals (view code) = (literals code).map (·.toBytes code) := literalsFrom_view [] code

theorem stop_le_of_mem_literals {code : List Char} {literal : Extent}
    (member : literal ∈ literals code) :
    literal.start < literal.stop ∧ literal.stop ≤ code.length := by
  obtain ⟨before, quote, rest, size, rfl, -, closes, rfl⟩ := mem_literalsFrom member
  obtain ⟨body, after, rfl, rfl, -⟩ := closing_eq_some closes
  simp only [List.length_append, List.length_cons]
  omega

theorem insideAny_view (before inner after : List Char) :
    insideAny (literals (view (before ++ (inner ++ after)))) (utf8Length before)
        (utf8Length inner) =
      insideAny (literals (before ++ (inner ++ after))) before.length inner.length := by
  generalize whole : before ++ (inner ++ after) = code
  have starts : utf8Length before = byteOffset code before.length := by
    rw [← whole, byteOffset_left]
  have stops : utf8Length before + utf8Length inner =
      byteOffset code (before.length + inner.length) := by
    rw [← whole, byteOffset_append, byteOffset_left]
  have bound : before.length + inner.length ≤ code.length := by
    rw [← whole, List.length_append, List.length_append]
    omega
  rw [insideAny, insideAny, literals_view, List.any_map, stops, starts]
  rw [Bool.eq_iff_iff, List.any_eq_true, List.any_eq_true]
  refine exists_congr fun literal => and_congr_right fun member => ?_
  obtain ⟨ordered, within⟩ := stop_le_of_mem_literals member
  simp only [Function.comp, Bool.and_eq_true, decide_eq_true_iff]
  exact and_congr (byteOffset_le_iff (by omega) (by omega)) (byteOffset_le_iff bound within)

end Literals

section Leads

theorem of?_view (code : List Char) : Lead.of? (view code) = (Lead.of? code).map Lead.bytes := by
  rw [Lead.of?, Lead.of?, dropWhile_view isAscii_isBlank, takeWhile_view isAscii_isBlank]
  cases code.dropWhile isBlank with
  | nil => rfl
  | cons c rest =>
    by_cases start : isNameStart c = true
    · rw [view_cons_of_ascii (isAscii_isNameStart c start)]
      simp [start, takeWhile_view isAscii_isNameChar, dropWhile_view isAscii_isNameChar, Lead.bytes]
    · obtain ⟨byte, more, bytes, refused⟩ :=
        exists_view_cons isAscii_isNameStart (Bool.eq_false_iff.2 start) rest
      simp [bytes, start, refused]

theorem following_bytes (lead : Lead) : lead.bytes.following = view lead.following :=
  dropWhile_view isAscii_isBlank lead.rest

theorem spaced_bytes (lead : Lead) : lead.bytes.spaced = lead.spaced :=
  head?_view isAscii_isBlank lead.rest

theorem afterColon?_bytes (lead : Lead) : lead.bytes.afterColon? = lead.afterColon?.map view := by
  rw [Lead.afterColon?, Lead.afterColon?, following_bytes]
  cases lead.following with
  | nil => rfl
  | cons c rest =>
    by_cases colon : c = ':'
    · rw [colon, view_cons_of_ascii (by decide)]
      rfl
    · obtain ⟨byte, more, bytes, refused⟩ :=
        exists_view_cons (isAscii_beq (d := ':') (by decide)) (beq_false_of_ne colon) rest
      have other : byte ≠ ':' := ne_of_beq_false refused
      rw [bytes]
      split <;> simp_all

theorem labelDefinition?_view (code : List Char) :
    labelDefinition? (view code) = labelDefinition? code := by
  rw [labelDefinition?, labelDefinition?, of?_view, Option.bind_map]
  congr 1
  funext lead
  rw [Function.comp, afterColon?_bytes, Option.map_map]
  rfl

end Leads

section Statements

theorem bind_afterColon?_view (code : List Char) :
    (Lead.of? (view code)).bind Lead.afterColon? =
      ((Lead.of? code).bind Lead.afterColon?).map view := by
  rw [of?_view, Option.bind_map, Option.map_bind]
  congr 1
  funext lead
  exact afterColon?_bytes lead

theorem statement_view (code : List Char) : statement (view code) = view (statement code) := by
  rw [statement, statement, bind_afterColon?_view]
  cases (Lead.of? code).bind Lead.afterColon? with
  | none => exact dropWhile_view isAscii_isBlank code
  | some tail => exact dropWhile_view isAscii_isBlank tail

theorem splitWidth_view (text : List Char) :
    splitWidth (view text) = ((splitWidth text).1, view (splitWidth text).2) := by
  fun_cases splitWidth text with
  | case1 c rest letter =>
    rw [view_cons_of_ascii (by decide), view_cons_of_ascii (isAscii_isAlpha c letter), splitWidth,
      if_pos letter, takeWhile_view isAscii_isAlpha, dropWhile_view isAscii_isAlpha]
  | case2 c rest other =>
    obtain ⟨byte, more, bytes, refused⟩ :=
      exists_view_cons isAscii_isAlpha (Bool.eq_false_iff.2 other) rest
    rw [view_cons_of_ascii (by decide), bytes, splitWidth, if_neg (Bool.eq_false_iff.1 refused)]
  | case3 other plain =>
    cases text with
    | nil => rfl
    | cons c rest =>
      by_cases dot : c = '.'
      · cases rest with
        | nil =>
          rw [dot]
          rfl
        | cons d rest => exact absurd (congrArg (· :: d :: rest) dot) (plain d rest)
      · obtain ⟨byte, more, bytes, refused⟩ :=
          exists_view_cons (isAscii_beq (d := '.') (by decide)) (beq_false_of_ne dot) rest
        rw [bytes, splitWidth]
        intro d tail same
        exact ne_of_beq_false refused (List.cons.inj same).1

theorem allIn_isSingle_of_isFront {front : List Char} (isFront : IsFront front) :
    AllIn isSingle front := by
  cases isFront with
  | blanks indent => exact isAscii_isBlank.allIn indent
  | label indent start name gap blanks =>
    refine allIn_append.2
      ⟨isAscii_isBlank.allIn indent, allIn_append.2 ⟨?_, allIn_append.2 ⟨?_, ?_⟩⟩⟩
    · exact allIn_cons.2
        ⟨decide_eq_true (isAscii_isNameStart _ start), isAscii_isNameChar.allIn name⟩
    · exact isAscii_isBlank.allIn gap
    · exact allIn_cons.2 ⟨by decide, isAscii_isBlank.allIn blanks⟩

theorem instruction_of?_view (code : List Char) :
    Instruction.of? (view code) = (Instruction.of? code).map Instruction.bytes := by
  obtain ⟨before, split⟩ := statement_suffix code
  have single := allIn_isSingle_of_isFront (statementAt_iff.2 ⟨split.symm, rfl⟩).isFront
  have ascii := view_of_ascii isAscii_isSingle single
  have columns : (view code).length - (view (statement code)).length =
      code.length - (statement code).length := by
    have bytes := congrArg (List.length ∘ view) split
    have chars := congrArg List.length split
    simp only [Function.comp, view_append, ascii, List.length_append] at bytes chars
    omega
  rw [Instruction.of?, Instruction.of?, statement_view, columns]
  generalize code.length - (statement code).length = column
  cases statement code with
  | nil => rfl
  | cons c rest =>
    by_cases letter : c.isAlpha = true
    · rw [view_cons_of_ascii (isAscii_isAlpha c letter)]
      simp only [letter, takeWhile_view isAscii_isWordChar, dropWhile_view isAscii_isWordChar,
        splitWidth_view, head?_view isAscii_isNameChar, if_true]
      split <;> rfl
    · obtain ⟨byte, more, bytes, refused⟩ :=
        exists_view_cons isAscii_isAlpha (Bool.eq_false_iff.2 letter) rest
      simp [bytes, letter, refused]

end Statements

end Bytes

end AsmLint
