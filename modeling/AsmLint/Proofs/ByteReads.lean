import AsmLint.Proofs.ByteScans

/-! What a line holds, read by cutting the line at byte offsets. The code part, the names, the
operands and what the line introduces are each cut out of the text where a scan of the bytes says
so. A cut that misses a boundary is a fault; none occurs, and what is cut out is what a reading of
the characters gives. -/

namespace AsmLint

structure Piece where
  text : List Char
  range : Extent
deriving DecidableEq, Repr

def Token.piece (code : List Char) (token : Token) : Piece :=
  ⟨token.text, Extent.toBytes ⟨token.start, token.stop⟩ code⟩

theorem Token.piece_of_append {code before after : List Char} {token : Token}
    (split : code = before ++ token.text ++ after) (start : before.length = token.start) :
    token.piece code = ⟨token.text, ⟨utf8Length before, utf8Length (before ++ token.text)⟩⟩ := by
  have stop : (before ++ token.text).length = token.stop := by
    rw [List.length_append, start]
    rfl
  rw [piece, Extent.toBytes, ← stop, ← start, split, byteOffset_left, List.append_assoc,
    byteOffset_left]

def Token.range (token : Token) : Extent := ⟨token.start, token.stop⟩

namespace Bytes

def find? (inClass : Char → Bool) (text : List Char) : Option Nat :=
  if text.any inClass then some (utf8Length (text.takeWhile fun c => !inClass c)) else none

def codePart (line : List Char) : Except Fault (List Char) :=
  match find? isCommentMarker line with
  | some stop => cut line ⟨0, stop⟩
  | none => .ok line

theorem find?_eq_none {inClass : Char → Bool} {text : List Char}
    (outside : AllIn (fun c => !inClass c) text) : find? inClass text = none := by
  have absent : text.any inClass = false := by simpa [AllIn] using outside
  rw [find?, absent]
  rfl

theorem find?_append {inClass : Char → Bool} {body : List Char} {c : Char}
    (outside : AllIn (fun c => !inClass c) body) (inside : inClass c = true) (after : List Char) :
    find? inClass (body ++ c :: after) = some (utf8Length body) := by
  have run : LongestRun (fun c => !inClass c) (body ++ c :: after) body (c :: after) :=
    ⟨rfl, outside, startsOutside_cons.2 (by simp [inside])⟩
  rw [find?, if_pos (by simp [inside]), run.takeWhile_eq]

theorem codePart_eq (line : List Char) : codePart line = .ok (AsmLint.codePart line) := by
  obtain ⟨split, outside, stops⟩ := longestRun_takeWhile (fun c => !isCommentMarker c) line
  rw [codePart, AsmLint.codePart]
  generalize line.takeWhile (fun c => !isCommentMarker c) = code at split outside
  cases rest : line.dropWhile (fun c => !isCommentMarker c) with
  | nil =>
    rw [rest, List.append_nil] at split
    rw [split, find?_eq_none outside]
  | cons marker comment =>
    rw [rest] at split stops
    have found := find?_append outside (by simpa using startsOutside_cons.1 stops) comment
    rw [← split] at found
    rw [found]
    exact cut_of_append (split.trans (List.nil_append _).symm) rfl (Nat.zero_add _).symm

section Names

/-- The names among bytes that start at `position` of the code. Every run of name characters is cut
out of the code, a number too. -/
def namesFrom (code : List Char) (position : Nat) (afterDollar : Bool) (bytes : List Char) :
    Except Fault (List Piece) :=
  match bytes with
  | [] => .ok []
  | byte :: rest =>
    if isNameChar byte then do
      let range := ⟨position, position + 1 + (rest.takeWhile isNameChar).length⟩
      let run ← cut code range
      let others ← namesFrom code range.stop false (rest.dropWhile isNameChar)
      if byte.isDigit || (afterDollar && run.all isHexDigit) then .ok others
      else .ok (⟨run, range⟩ :: others)
    else namesFrom code (position + 1) (byte == '$') rest
termination_by bytes.length
decreasing_by
  · simp only [List.length_cons]
    have shorter := (List.dropWhile_sublist (p := isNameChar) (l := rest)).length_le
    omega
  · simp

def names (code : List Char) : Except Fault (List Piece) := namesFrom code 0 false (view code)

variable {code before rest : List Char} {afterDollar : Bool} {c : Char}

theorem namesFrom_wide {wide : List Char} (allWide : AllIn isWide wide) (nonempty : wide ≠ [])
    (position : Nat) (bytes : List Char) :
    namesFrom code position afterDollar (wide ++ bytes) =
      namesFrom code (position + wide.length) false bytes := by
  induction wide generalizing position afterDollar with
  | nil => exact absurd rfl nonempty
  | cons byte wide ih =>
    obtain ⟨first, others⟩ := allIn_cons.1 allWide
    have notName : ¬ isNameChar byte = true := by simp [isAscii_isNameChar.outside first]
    have notDollar : (byte == '$') = false := (isAscii_beq (by decide)).outside first
    rw [List.cons_append, namesFrom, if_neg notName, notDollar]
    cases wide with
    | nil => rfl
    | cons next wide =>
      rw [ih others (List.cons_ne_nil _ _)]
      congr 1
      simp only [List.length_cons]
      omega

theorem namesFrom_of_other (other : ¬ isNameChar c = true) (position : Nat) :
    namesFrom code position afterDollar (view (c :: rest)) =
      namesFrom code (position + c.utf8Size) (c == '$') (view rest) := by
  by_cases small : c.toNat < 128
  · rw [view_cons_of_ascii small, namesFrom, if_neg other, utf8Size_of_ascii small]
  · have large : 128 ≤ c.toNat := Nat.le_of_not_lt small
    have notDollar : (c == '$') = false := (isAscii_beq (by decide)).outside (decide_eq_true large)
    obtain ⟨byte, more, bytes, -⟩ := exists_ofChar c
    rw [view_cons, namesFrom_wide (allIn_isWide_ofChar large) (by simp [bytes]), length_ofChar,
      notDollar]

theorem namesFrom_of_nameChar (nameChar : isNameChar c = true)
    (split : code = before ++ c :: rest) :
    namesFrom code (utf8Length before) afterDollar (view (c :: rest)) =
      let run := c :: rest.takeWhile isNameChar
      (namesFrom code (utf8Length (before ++ run)) false (view (rest.dropWhile isNameChar))).bind
        fun others =>
          if c.isDigit || (afterDollar && run.all isHexDigit) then .ok others
          else .ok (⟨run, ⟨utf8Length before, utf8Length (before ++ run)⟩⟩ :: others) := by
  have run := longestRun_takeWhile isNameChar rest
  have inside : AllIn isNameChar (c :: rest.takeWhile isNameChar) :=
    allIn_cons.2 ⟨nameChar, run.inside⟩
  have length := utf8Length_of_ascii isAscii_isNameChar inside
  have stop : utf8Length before + 1 + (rest.takeWhile isNameChar).length =
      utf8Length (before ++ c :: rest.takeWhile isNameChar) := by
    rw [utf8Length_append, length, List.length_cons, Nat.add_assoc, Nat.add_comm 1]
  have taken : cut code ⟨utf8Length before, utf8Length (before ++ c :: rest.takeWhile isNameChar)⟩ =
      .ok (c :: rest.takeWhile isNameChar) := by
    have whole :
        code = before ++ (c :: rest.takeWhile isNameChar ++ rest.dropWhile isNameChar) := by
      rw [split, List.cons_append, ← run.split]
    exact cut_of_append whole rfl (utf8Length_append _ _)
  rw [view_cons_of_ascii (isAscii_isNameChar c nameChar), namesFrom, if_pos nameChar,
    takeWhile_view isAscii_isNameChar, dropWhile_view isAscii_isNameChar, stop]
  dsimp only
  rw [taken]
  rfl

theorem namesFrom_eq (code : List Char) (position : Nat) (afterDollar : Bool) (text : List Char) :
    ∀ before, code = before ++ text → before.length = position →
      namesFrom code (utf8Length before) afterDollar (view text) =
        .ok ((AsmLint.namesFrom position afterDollar text).map (Token.piece code)) := by
  fun_induction AsmLint.namesFrom position afterDollar text with
  | case1 =>
    intro before _ _
    rw [view_nil, namesFrom, List.map_nil]
  | case2 position afterDollar c rest nameChar run others number ih =>
    intro before split start
    have whole : code = before ++ run ++ rest.dropWhile isNameChar := by
      rw [split, List.append_assoc, List.cons_append, List.takeWhile_append_dropWhile]
    have next := ih (before ++ run) whole (by rw [List.length_append, start])
    rw [namesFrom_of_nameChar nameChar split]
    dsimp only
    rw [next, Except.bind, if_pos number]
  | case3 position afterDollar c rest nameChar run others notNumber ih =>
    intro before split start
    have whole : code = before ++ run ++ rest.dropWhile isNameChar := by
      rw [split, List.append_assoc, List.cons_append, List.takeWhile_append_dropWhile]
    have next := ih (before ++ run) whole (by rw [List.length_append, start])
    rw [namesFrom_of_nameChar nameChar split]
    dsimp only
    rw [next, Except.bind, if_neg notNumber, List.map_cons, Token.piece_of_append whole start]
  | case4 position afterDollar c rest other ih =>
    intro before split start
    have next := ih (before ++ [c]) (by simp [split]) (by simp [start])
    rw [utf8Length_append, utf8Length, utf8Length, Nat.add_zero] at next
    rw [namesFrom_of_other other, next]

theorem names_eq (code : List Char) :
    names code = .ok ((AsmLint.names code).map (Token.piece code)) :=
  namesFrom_eq code 0 false code [] (List.nil_append code).symm rfl

end Names

theorem small_toUpper_iff (c : Char) : c.toUpper.toNat < 128 ↔ c.toNat < 128 := by
  have letters (d : Char) (letter : d.isAlpha = true) : decide (d.toNat < 128) = true :=
    decide_eq_true (isAscii_isAlpha d letter)
  have same := inClass_toUpper letters c
  exact decide_eq_decide.1 same

theorem utf8Size_toUpper (c : Char) : c.toUpper.utf8Size = c.utf8Size := by
  by_cases small : c.toNat < 128
  · rw [utf8Size_of_ascii small, utf8Size_of_ascii ((small_toUpper_iff c).2 small)]
  · rw [toUpper_eq_self]
    rintro ⟨-, upTo⟩
    exact small (Nat.lt_of_le_of_lt (UInt32.le_iff_toNat_le.1 upTo) (by decide))

theorem utf8Length_upper (text : List Char) : utf8Length (upper text) = utf8Length text := by
  induction text with
  | nil => rfl
  | cons c text ih =>
    rw [upper, List.map_cons, ← upper, utf8Length, ih, utf8Size_toUpper, utf8Length]

section Words

/-- The word stands at the offset, letter case aside. Where its length does not lead to a boundary,
it does not stand there. -/
def sameAt (word code : List Char) (start : Nat) : Bool :=
  (cut? code ⟨start, start + utf8Length word⟩).any (sameIgnoringCase · word)

def wordAt (word code : List Char) (start : Nat) : Bool :=
  sameAt word code start &&
    !((view code).drop (start + utf8Length word)).head?.any isWordChar

def startsWithKeyword (keyword code : List Char) : Bool :=
  wordAt keyword code ((view code).takeWhile isBlank).length

def startsWithStorage (text : List Char) : Bool :=
  sameAt "DS.".toList text 0 &&
    ((view text).drop 3).head?.any fun byte => "BWLD".toList.contains byte.toUpper

variable {word before text : List Char}

theorem utf8Length_of_same {written : List Char} (same : sameIgnoringCase written word = true) :
    utf8Length written = utf8Length word := by
  rw [← utf8Length_upper, sameIgnoringCase_iff.1 same, utf8Length_upper]

/-- A window as long as the word in bytes can end inside a character; then no word stands there. -/
theorem sameAt_eq (word before text : List Char) :
    sameAt word (before ++ text) (utf8Length before) =
      sameIgnoringCase (text.take word.length) word := by
  have whole : before ++ text = before ++ (text.take word.length ++ text.drop word.length) := by
    rw [List.take_append_drop]
  rw [Bool.eq_iff_iff, sameAt, Option.any_eq_true]
  constructor
  · rintro ⟨inner, found, same⟩
    obtain ⟨first, after, split, starts, -⟩ := exists_append_of_cut? found
    obtain ⟨rfl, rfl⟩ := append_inj_of_utf8Length split starts
    have length : inner.length = word.length := by
      rw [← length_upper inner, sameIgnoringCase_iff.1 same, length_upper]
    rw [← length, List.take_left]
    exact same
  · intro same
    have stop := utf8Length_of_same same
    exact ⟨_, cut?_of_append whole rfl (by rw [stop]), same⟩

theorem drop_view_of_same (same : sameIgnoringCase (text.take word.length) word = true) :
    (view (before ++ text)).drop (utf8Length before + utf8Length word) =
      view (text.drop word.length) := by
  have split : before ++ text = (before ++ text.take word.length) ++ text.drop word.length := by
    rw [List.append_assoc, List.take_append_drop]
  rw [split, view_append, ← utf8Length_of_same same, ← utf8Length_append, ← length_view,
    List.drop_left]

theorem wordAt_eq (word before text : List Char) :
    wordAt word (before ++ text) (utf8Length before) = startsWithWord word text := by
  rw [wordAt, startsWithWord, sameAt_eq]
  cases same : sameIgnoringCase (text.take word.length) word with
  | false => rfl
  | true => rw [drop_view_of_same same, head?_view isAscii_isWordChar]

theorem startsWithKeyword_eq (keyword code : List Char) :
    startsWithKeyword keyword code = AsmLint.startsWithKeyword keyword code := by
  have run := longestRun_takeWhile isBlank code
  have start := utf8Length_of_ascii isAscii_isBlank run.inside
  have word := wordAt_eq keyword (code.takeWhile isBlank) (code.dropWhile isBlank)
  rw [← run.split, start] at word
  rw [startsWithKeyword, takeWhile_view isAscii_isBlank, word, AsmLint.startsWithKeyword]

theorem startsWithStorage_eq (text : List Char) :
    startsWithStorage text = AsmLint.startsWithStorage text := by
  have ascii : IsAscii fun c => "BWLD".toList.contains c.toUpper := by
    intro c width
    have letters : "BWLD".toList.all (·.toNat < 128) = true := by decide
    apply (small_toUpper_iff c).1
    exact of_decide_eq_true (List.all_eq_true.1 letters _ (List.contains_iff_mem.1 width))
  have stem : sameAt "DS.".toList text 0 = sameIgnoringCase (text.take 3) "DS.".toList :=
    sameAt_eq "DS.".toList [] text
  rw [startsWithStorage, AsmLint.startsWithStorage, stem]
  cases same : sameIgnoringCase (text.take 3) "DS.".toList with
  | false => rfl
  | true =>
    have rest : (view text).drop 3 = view (text.drop 3) :=
      @drop_view_of_same "DS.".toList [] text same
    rw [rest, head?_view ascii]

end Words

section Definitions

def variableRange? (inBlock : Bool) (code : List Char) : Except Fault (Option Extent) :=
  match Lead.of? (view code) with
  | none => .ok none
  | some lead => do
    let range := lead.token.range
    let after := range.stop + (lead.rest.takeWhile isBlank).length
    let rest ← cut code ⟨after, utf8Length code⟩
    let spaced := decide (range.stop < after)
    if (spaced && wordAt "EQU".toList rest 0) || rest.head? == some '=' ||
        (spaced && startsWithStorage rest) || (inBlock && rest.isEmpty) then
      .ok (some range)
    else .ok none

def declarationRange? (isKeyword : String → Bool) (code : List Char) :
    Except Fault (Option Extent) :=
  match Lead.of? (view code) with
  | none => .ok none
  | some lead => do
    let keyword ← cut code lead.token.range
    if isKeyword (String.ofList keyword) && lead.spaced then
      match Lead.of? lead.rest with
      | none => .ok none
      | some declared => do
        let start := lead.token.stop + declared.column
        let written ← cut code ⟨start, start + declared.name.length⟩
        let name := dropTrailingDots written
        if name.isEmpty then .ok none else .ok (some ⟨start, start + utf8Length name⟩)
    else .ok none

def readToken (code : List Char) (range : Extent) : Except Fault Token := do
  let text ← cut code range
  let start ← column code range.start
  .ok ⟨text, start⟩

/-- The name stands in the code after ASCII characters alone, so its columns are byte offsets. -/
def InFront (code : List Char) (token : Token) : Prop :=
  ∃ before after, code = before ++ (token.text ++ after) ∧ before.length = token.start ∧
    AllIn isSingle before ∧ AllIn isSingle token.text

variable {code rest : List Char} {token : Token}

theorem inFront_of_leadsWith (leads : LeadsWith code token rest) : InFront code token := by
  obtain ⟨indent, text, blanks, column, name, -⟩ := leads
  exact ⟨indent, rest, by rw [blanks.split, name.split], column,
    isAscii_isBlank.allIn blanks.inside, isAscii_isNameChar.allIn name.inside⟩

theorem InFront.append {front : List Char} (single : AllIn isSingle front)
    (inFront : InFront rest token) :
    InFront (front ++ rest) ⟨token.text, front.length + token.start⟩ := by
  obtain ⟨before, after, split, start, ascii, name⟩ := inFront
  exact ⟨front ++ before, after, by rw [split, List.append_assoc], by simp [start],
    allIn_append.2 ⟨single, ascii⟩, name⟩

theorem InFront.start {kept dropped : List Char} {column : Nat}
    (inFront : InFront code ⟨kept ++ dropped, column⟩) : InFront code ⟨kept, column⟩ := by
  obtain ⟨before, after, split, start, ascii, name⟩ := inFront
  exact ⟨before, dropped ++ after, by rw [split, List.append_assoc], start, ascii,
    (allIn_append.1 name).1⟩

theorem InFront.cut_eq (inFront : InFront code token) : cut code token.range = .ok token.text := by
  obtain ⟨before, after, split, start, ascii, name⟩ := inFront
  apply cut_of_append split
  · rw [utf8Length_of_ascii isAscii_isSingle ascii]
    exact start.symm
  · rw [utf8Length_of_ascii isAscii_isSingle ascii, utf8Length_of_ascii isAscii_isSingle name,
      start]
    rfl

theorem InFront.readToken_eq (inFront : InFront code token) :
    readToken code token.range = .ok token := by
  have text := inFront.cut_eq
  obtain ⟨before, after, split, start, ascii, -⟩ := inFront
  have found : column code token.range.start = .ok token.start := by
    rw [← start]
    apply column_of_append split
    rw [utf8Length_of_ascii isAscii_isSingle ascii]
    exact start.symm
  rw [readToken, text, ok_bind, found, ok_bind]

theorem InFront.inside_eq (inFront : InFront code token) :
    insideAny (literals (view code)) token.range.start token.range.length =
      token.inside (literals code) := by
  obtain ⟨before, after, split, start, ascii, name⟩ := inFront
  have inside := insideAny_view before token.text after
  rw [← split, utf8Length_of_ascii isAscii_isSingle ascii,
    utf8Length_of_ascii isAscii_isSingle name, start] at inside
  have length : token.range.length = token.text.length := Nat.add_sub_cancel_left _ _
  rw [Token.inside, ← inside, length]
  rfl

theorem exists_front_of_lead {lead : Lead} (found : Lead.of? code = some lead) :
    ∃ front, code = front ++ lead.rest ∧ AllIn isSingle front ∧
      front.length = lead.token.stop := by
  obtain ⟨indent, text, blanks, column, name, -⟩ := lead_of?_iff.1 found
  refine ⟨indent ++ lead.name, ?_, ?_, ?_⟩
  · rw [blanks.split, name.split, List.append_assoc]
    rfl
  · exact allIn_append.2 ⟨isAscii_isBlank.allIn blanks.inside, isAscii_isNameChar.allIn name.inside⟩
  · rw [List.length_append, column]
    rfl

theorem variableRange?_eq (inBlock : Bool) (code : List Char) :
    variableRange? inBlock code =
      .ok ((variableDefinition? inBlock code).map Token.range) := by
  rw [variableRange?, variableDefinition?, of?_view]
  cases found : Lead.of? code with
  | none => rfl
  | some lead =>
    obtain ⟨front, split, single, length⟩ := exists_front_of_lead found
    have gap := longestRun_takeWhile isBlank lead.rest
    have following : cut code ⟨lead.token.range.stop + (lead.rest.takeWhile isBlank).length,
        utf8Length code⟩ = .ok lead.following := by
      have whole : code = (front ++ lead.rest.takeWhile isBlank) ++ lead.following := by
        rw [List.append_assoc, Lead.following, ← gap.split, split]
      have start : utf8Length (front ++ lead.rest.takeWhile isBlank) =
          lead.token.range.stop + (lead.rest.takeWhile isBlank).length := by
        rw [utf8Length_append, utf8Length_of_ascii isAscii_isSingle single, length,
          utf8Length_of_ascii isAscii_isBlank gap.inside]
        rfl
      have rest := cut_rest whole
      rw [start] at rest
      exact rest
    have spaced : decide (lead.token.range.stop <
        lead.token.range.stop + (lead.rest.takeWhile isBlank).length) = lead.spaced := by
      rw [Bool.eq_iff_iff, decide_eq_true_iff, Lead.spaced_iff, ← List.length_pos_iff]
      omega
    have word : wordAt "EQU".toList lead.following 0 = startsWithWord "EQU".toList lead.following :=
      wordAt_eq "EQU".toList [] lead.following
    have bytes : lead.bytes.token = lead.token := rfl
    have blanks : lead.bytes.rest.takeWhile isBlank = lead.rest.takeWhile isBlank :=
      takeWhile_view isAscii_isBlank lead.rest
    dsimp only [Option.map_some, Option.bind_some]
    rw [bytes, blanks, following, ok_bind, spaced, word, startsWithStorage_eq]
    change (if definesVariable inBlock lead = true then _ else _) = _
    split <;> rfl

theorem inFront_of_leads {lead declared : Lead} (found : Lead.of? code = some lead)
    (next : Lead.of? lead.rest = some declared) :
    InFront code ⟨declared.name, lead.token.stop + declared.column⟩ := by
  obtain ⟨front, split, single, length⟩ := exists_front_of_lead found
  have inFront := (inFront_of_leadsWith (lead_of?_iff.1 next)).append single
  rw [← split, length] at inFront
  exact inFront

theorem declarationRange?_eq (isKeyword : String → Bool) (code : List Char) :
    declarationRange? isKeyword code =
      .ok ((declaration? isKeyword code).map Token.range) := by
  rw [declarationRange?, declaration?, of?_view]
  cases found : Lead.of? code with
  | none => rfl
  | some lead =>
    have keyword : cut code lead.token.range = .ok lead.name :=
      (inFront_of_leadsWith (lead_of?_iff.1 found)).cut_eq
    have spaced := spaced_bytes lead
    have bytes : lead.bytes.token = lead.token := rfl
    have rest : lead.bytes.rest = view lead.rest := rfl
    dsimp only [Option.map_some, Option.bind_some]
    rw [bytes, keyword, ok_bind, spaced, rest, of?_view]
    by_cases declares : (isKeyword (String.ofList lead.name) && lead.spaced) = true
    · rw [if_pos declares, if_pos declares]
      cases next : Lead.of? lead.rest with
      | none => rfl
      | some declared =>
        have inFront := inFront_of_leads found next
        have written : cut code ⟨lead.token.stop + declared.column,
            lead.token.stop + declared.column + declared.name.length⟩ = .ok declared.name :=
          inFront.cut_eq
        obtain ⟨dots, split, -, -⟩ :=
          dropWhile_reverse_iff.1 (rfl : dropTrailingDots declared.name = _)
        rw [split] at inFront
        obtain ⟨-, -, -, -, -, name⟩ := inFront.start
        have length := utf8Length_of_ascii isAscii_isSingle name
        dsimp only [Option.map_some, Option.bind_some, Lead.bytes]
        rw [written, ok_bind, length]
        split <;> rfl
    · rw [if_neg declares, if_neg declares]
      rfl

theorem inFront_of_declares {isKeyword : String → Bool} (declares : Declares isKeyword code token) :
    InFront code token := by
  obtain ⟨keyword, rest, gap, dots, after, leads, -, -, next, -, -, -, start⟩ := declares
  obtain ⟨text, column⟩ := token
  obtain rfl : column = keyword.stop + gap := start
  have found : Lead.of? code = some ⟨keyword.start, keyword.text, rest⟩ := lead_of?_iff.2 leads
  have declared : Lead.of? rest = some ⟨gap, text ++ dots, after⟩ := lead_of?_iff.2 next
  exact (inFront_of_leads found declared).start

end Definitions

section Nesting

/-- A macro depth that no machine word holds is a fault. -/
def observe (nesting : Nesting) (code : List Char) : Except Fault Nesting := do
  let opened ←
    if startsWithKeyword "MACRO".toList code then
      if nesting.macroDepth + 1 < UInt32.size then .ok (nesting.macroDepth + 1) else .error .tooDeep
    else .ok nesting.macroDepth
  let macroDepth := if startsWithKeyword "ENDM".toList code then opened - 1 else opened
  .ok ⟨(view code).foldl Nesting.observeBrace nesting.braceDepth, macroDepth⟩

theorem foldl_observeBrace_ofChar (depth : Int) (c : Char) :
    (ofChar c).foldl Nesting.observeBrace depth = Nesting.observeBrace depth c := by
  have passed (wide : List Char) (allWide : AllIn isWide wide) (depth : Int) :
      wide.foldl Nesting.observeBrace depth = depth := by
    induction wide with
    | nil => rfl
    | cons byte wide ih =>
      obtain ⟨first, others⟩ := allIn_cons.1 allWide
      have opens : byte ≠ '\x7b' := ne_of_beq_false ((isAscii_beq (by decide)).outside first)
      have closes : byte ≠ '\x7d' := ne_of_beq_false ((isAscii_beq (by decide)).outside first)
      rw [List.foldl_cons, Nesting.observeBrace, if_neg opens, if_neg closes, ih others]
  obtain ⟨byte, more, bytes, -, wide, same⟩ := exists_ofChar c
  have opens := same (· == '\x7b') (isAscii_beq (by decide))
  have closes := same (· == '\x7d') (isAscii_beq (by decide))
  rw [Bool.eq_iff_iff, beq_iff_eq, beq_iff_eq] at opens closes
  simp only [bytes, List.foldl_cons, passed more wide, Nesting.observeBrace, opens, closes]

theorem foldl_observeBrace_view (depth : Int) (code : List Char) :
    (view code).foldl Nesting.observeBrace depth = code.foldl Nesting.observeBrace depth := by
  induction code generalizing depth with
  | nil => rfl
  | cons c rest ih =>
    rw [view_cons, List.foldl_append, foldl_observeBrace_ofChar, ih, List.foldl_cons]

theorem observe_eq {nesting : Nesting} {code : List Char}
    (bound : Nesting.opensMacro code = true → nesting.macroDepth + 1 < UInt32.size) :
    observe nesting code = .ok (nesting.observe code) := by
  have opens : AsmLint.startsWithKeyword "MACRO".toList code = Nesting.opensMacro code := rfl
  have closes : AsmLint.startsWithKeyword "ENDM".toList code = Nesting.closesMacro code := rfl
  rw [observe, startsWithKeyword_eq, startsWithKeyword_eq, foldl_observeBrace_view, opens, closes,
    Nesting.observe, Nesting.observeMacro]
  cases starts : Nesting.opensMacro code with
  | false => rfl
  | true =>
    rw [if_pos rfl, if_pos (bound starts)]
    rfl

end Nesting

section Operands

def piecesFrom (code : List Char) (quoted : List Extent) (start position : Nat) :
    List Char → Except Fault (List (List Char))
  | [] => do
    let last ← cut code ⟨start, utf8Length code⟩
    .ok [last]
  | byte :: rest =>
    if byte == ',' && !insideAny quoted position 1 then do
      let piece ← cut code ⟨start, position⟩
      let others ← piecesFrom code quoted (position + 1) (position + 1) rest
      .ok (piece :: others)
    else piecesFrom code quoted start (position + 1) rest

def operands (code : List Char) (quoted : List Extent) (start : Nat) :
    Except Fault (List (List Char)) := do
  let pieces ← piecesFrom code quoted start start ((view code).drop start)
  .ok ((pieces.map trim).filter fun piece => !piece.isEmpty)

theorem commaPieces_of_plain {quoted : List Extent} {position : Nat} {c : Char}
    (plain : ¬ (c == ',' && !insideAny quoted position 1) = true) (rest : List Char) :
    commaPieces quoted position (c :: rest) =
      (commaPieces quoted (position + 1) rest).modifyHead (c :: ·) := by
  have nonempty : commaPieces quoted (position + 1) rest ≠ [] := by
    cases rest with
    | nil => simp [commaPieces]
    | cons d rest =>
      rw [commaPieces]
      split
      · simp
      · split <;> simp
  obtain ⟨piece, pieces, found⟩ := List.exists_cons_of_ne_nil nonempty
  rw [commaPieces, if_neg plain, found, List.modifyHead_cons]

theorem piecesFrom_plain {code plain : List Char}
    (noComma : AllIn (fun byte => !(byte == ',')) plain) (quoted : List Extent)
    (start position : Nat) (bytes : List Char) :
    piecesFrom code quoted start position (plain ++ bytes) =
      piecesFrom code quoted start (position + plain.length) bytes := by
  induction plain generalizing position with
  | nil => rfl
  | cons byte plain ih =>
    obtain ⟨first, others⟩ := allIn_cons.1 noComma
    have other : (byte == ',') = false := by simpa using first
    rw [List.cons_append, piecesFrom, other, Bool.false_and, if_neg (by simp), ih others,
      List.length_cons, Nat.add_right_comm, Nat.add_assoc]

section Steps

variable {code left rest : List Char} {c : Char} {start : Nat}

theorem insideAny_comma (split : code = left ++ ',' :: rest) :
    insideAny (literals (view code)) (utf8Length left) 1 =
      insideAny (literals code) left.length 1 := by
  rw [split]
  exact insideAny_view left [','] rest

theorem piecesFrom_separates (split : code = left ++ c :: rest)
    (separates : (c == ',' && !insideAny (literals code) left.length 1) = true) :
    piecesFrom code (literals (view code)) start (utf8Length left) (view (c :: rest)) =
      (do
        let piece ← cut code ⟨start, utf8Length left⟩
        let others ← piecesFrom code (literals (view code)) (utf8Length (left ++ [c]))
          (utf8Length (left ++ [c])) (view rest)
        .ok (piece :: others)) := by
  obtain rfl : c = ',' := eq_of_beq (Bool.and_eq_true_iff.1 separates).1
  have stop : utf8Length (left ++ [',']) = utf8Length left + 1 := utf8Length_append left [',']
  rw [view_cons_of_ascii (by decide), piecesFrom, insideAny_comma split, if_pos separates, stop]

theorem piecesFrom_joins (split : code = left ++ c :: rest)
    (joins : ¬ (c == ',' && !insideAny (literals code) left.length 1) = true) :
    piecesFrom code (literals (view code)) start (utf8Length left) (view (c :: rest)) =
      piecesFrom code (literals (view code)) start (utf8Length (left ++ [c])) (view rest) := by
  have stop : utf8Length (left ++ [c]) = utf8Length left + c.utf8Size := by
    rw [utf8Length_append, utf8Length, utf8Length, Nat.add_zero]
  by_cases comma : c = ','
  · subst comma
    rw [view_cons_of_ascii (by decide), piecesFrom, insideAny_comma split, if_neg joins, stop]
    rfl
  · have plain : (c == ',') = false := beq_false_of_ne comma
    rw [view_cons, piecesFrom_plain (allIn_outside_ofChar (isAscii_beq (by decide)) plain),
      length_ofChar, stop]

end Steps

theorem piecesFrom_eq {code before piece rest : List Char}
    (split : code = before ++ (piece ++ rest)) :
    piecesFrom code (literals (view code)) (utf8Length before) (utf8Length (before ++ piece))
        (view rest) =
      .ok ((commaPieces (literals code) (before ++ piece).length rest).modifyHead
        (piece ++ ·)) := by
  -- `piece` is what has been passed since the last comma that separates.
  induction rest generalizing before piece with
  | nil =>
    rw [List.append_nil] at split
    have last := cut_rest split
    rw [view_nil, piecesFrom, last, ok_bind, commaPieces, List.modifyHead_cons, List.append_nil]
  | cons c rest ih =>
    have whole : code = before ++ piece ++ c :: rest := by rw [split, List.append_assoc]
    have length : (before ++ piece ++ [c]).length = (before ++ piece).length + 1 := by
      rw [List.length_append, List.length_singleton]
    by_cases separates : (c == ',' && !insideAny (literals code) (before ++ piece).length 1) = true
    · have taken : cut code ⟨utf8Length before, utf8Length (before ++ piece)⟩ = .ok piece :=
        cut_of_append split rfl (utf8Length_append before piece)
      have next := @ih (before ++ piece ++ [c]) [] (by simp [split])
      rw [List.append_nil, modifyHead_nil_append, length] at next
      rw [piecesFrom_separates whole separates, taken, ok_bind, next, ok_bind, commaPieces,
        if_pos separates, List.modifyHead_cons, List.append_nil]
    · have next := @ih before (piece ++ [c]) (by simp [split])
      rw [← List.append_assoc, length] at next
      rw [piecesFrom_joins whole separates, next, commaPieces_of_plain separates,
        List.modifyHead_modifyHead]
      simp only [Function.comp_def, List.append_assoc, List.singleton_append]

theorem exists_front_of_instruction {code : List Char} {instruction : Instruction}
    (found : Instruction.of? code = some instruction) :
    ∃ front, code = front ++ (instruction.mnemonic ++ instruction.rest) ∧
      front.length = instruction.column ∧ AllIn isSingle front ∧
      AllIn isSingle instruction.mnemonic := by
  obtain ⟨front, text, place, column, run, mnemonic⟩ := instruction_of?_iff.1 found
  exact ⟨front, by rw [← run.split]; exact place.1, column,
    allIn_isSingle_of_isFront place.isFront, isAscii_isNameChar.allIn mnemonic.allIn⟩

theorem operands_eq {code : List Char} {instruction : Instruction}
    (found : Instruction.of? code = some instruction) :
    operands code (literals (view code)) instruction.stop =
      .ok (AsmLint.operands (literals code) instruction) := by
  obtain ⟨front, split, column, single, mnemonic⟩ := exists_front_of_instruction found
  have length : (front ++ instruction.mnemonic).length = instruction.stop := by
    rw [List.length_append, column, Instruction.stop]
  have offset : utf8Length (front ++ instruction.mnemonic) = instruction.stop := by
    rw [utf8Length_of_ascii isAscii_isSingle (allIn_append.2 ⟨single, mnemonic⟩), length]
  have whole : code = front ++ instruction.mnemonic ++ ([] ++ instruction.rest) := by
    rw [split, List.append_assoc, List.nil_append]
  have bytes : (view code).drop instruction.stop = view instruction.rest := by
    rw [whole, view_append, ← offset, ← length_view, List.drop_left, List.nil_append]
  have pieces := piecesFrom_eq whole
  rw [List.append_nil, modifyHead_nil_append, offset, length] at pieces
  rw [operands, bytes, pieces, ok_bind, AsmLint.operands]

end Operands

section Offsets

def labelEnd? (text : List Char) : Option Nat :=
  ((Lead.of? text).bind Lead.afterColon?).map fun tail => text.length - tail.length

/-- What the scans of the bytes of a line find starts and stops where characters do. -/
structure ReadOnBoundaries (code : List Char) : Prop where
  literal : ∀ extent ∈ literals (view code),
    extent.start < extent.stop ∧ IsBoundary code extent.start ∧ IsBoundary code extent.stop
  name : ∀ pieces, names code = .ok pieces → ∀ piece ∈ pieces,
    IsBoundary code piece.range.start ∧ IsBoundary code piece.range.stop
  label : ∀ stop, labelEnd? (view code) = some stop → IsBoundary code stop
  mnemonic : ∀ found, Instruction.of? (view code) = some found →
    IsBoundary code found.column ∧ IsBoundary code found.stop

theorem isBoundary_labelEnd? {code : List Char} {stop : Nat}
    (found : labelEnd? (view code) = some stop) : IsBoundary code stop := by
  rw [labelEnd?, bind_afterColon?_view, Option.map_map] at found
  obtain ⟨tail, label, rfl⟩ := Option.map_eq_some_iff.1 found
  obtain ⟨lead, leads, colon⟩ := Option.bind_eq_some_iff.1 label
  obtain ⟨front, split, -⟩ := exists_front_of_lead leads
  obtain ⟨gap, run⟩ := afterColon?_iff.1 colon
  refine ⟨front ++ gap ++ [':'], tail, by simp [split, run.split], ?_⟩
  rw [Function.comp, length_view, length_view, split, run.split]
  simp only [utf8Length_append, utf8Length]
  omega

theorem readOnBoundaries (code : List Char) : ReadOnBoundaries code where
  literal := by
    rw [literals_view, List.forall_mem_map]
    intro literal member
    obtain ⟨ordered, within⟩ := stop_le_of_mem_literals member
    refine ⟨?_, isBoundary_byteOffset code _, isBoundary_byteOffset code _⟩
    rw [Extent.toBytes, ← Nat.not_le, byteOffset_le_iff within (by omega)]
    omega
  name := by
    intro pieces found piece member
    rw [names_eq, Except.ok.injEq] at found
    rw [← found] at member
    obtain ⟨token, -, rfl⟩ := List.mem_map.1 member
    exact ⟨isBoundary_byteOffset code _, isBoundary_byteOffset code _⟩
  label _ := isBoundary_labelEnd?
  mnemonic := by
    intro bytes found
    rw [instruction_of?_view] at found
    obtain ⟨instruction, here, rfl⟩ := Option.map_eq_some_iff.1 found
    obtain ⟨front, split, start, single, mnemonic⟩ := exists_front_of_instruction here
    have stop : (front ++ instruction.mnemonic).length = instruction.stop := by
      rw [List.length_append, start]
      rfl
    have first := isBoundary_of_single (instruction.mnemonic ++ instruction.rest) single
    have last := isBoundary_of_single instruction.rest (allIn_append.2 ⟨single, mnemonic⟩)
    rw [← split, start] at first
    rw [List.append_assoc, ← split, stop] at last
    exact ⟨first, last⟩

end Offsets

end Bytes

end AsmLint
