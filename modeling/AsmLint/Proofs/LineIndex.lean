import AsmLint.Command.Reporting

/-! Lines of a text and offsets into it. The lines of a text, put together again with line feeds
between them, are the text, and its index says of each line where it starts and how long it is. A
carriage return before a line feed belongs to the line here; a document drops it, which shortens the
line at its end and moves nothing. -/

namespace AsmLint

theorem splitBy_eq_splitOnP (separates : Char → Bool) (text : List Char) :
    splitBy separates text = text.splitOnP separates := by
  induction text with
  | nil => rfl
  | cons c rest ih =>
    rw [splitBy, List.splitOnP_cons_eq_if_modifyHead, ih]
    cases found : rest.splitOnP separates with
    | nil => exact absurd found (List.splitOnP_ne_nil _ _)
    | cons piece pieces => rfl

/-- The lines of a text with their carriage returns. -/
def textLines (text : List Char) : List (List Char) := splitBy (· == '\n') text

theorem textLines_cons (c : Char) (rest : List Char) :
    textLines (c :: rest) =
      if c = '\n' then [] :: textLines rest else (textLines rest).modifyHead (c :: ·) := by
  simp only [textLines, splitBy_eq_splitOnP, List.splitOnP_cons_eq_if_modifyHead, beq_iff_eq]

theorem intercalate_textLines (text : List Char) :
    ['\n'].intercalate (textLines text) = text := by
  rw [textLines, splitBy_eq_splitOnP]
  exact List.intercalate_splitOn '\n'

theorem head?_textLines (text : List Char) :
    (textLines text).head? = some (text.takeWhile (· != '\n')) := by
  induction text with
  | nil => rfl
  | cons c rest ih =>
    rw [textLines_cons]
    by_cases lineFeed : c = '\n'
    · simp [lineFeed]
    · simp [lineFeed, ih]

def extents (start : Nat) : List (List Char) → List LineExtent
  | [] => []
  | line :: lines => ⟨start, line.length⟩ :: extents (start + line.length + 1) lines

theorem exists_extent {lines : List (List Char)} {number : Nat} {line : List Char} (start : Nat)
    (here : lines[number]? = some line) :
    ∃ before after, ['\n'].intercalate lines = before ++ line ++ after ∧
      (extents start lines)[number]? = some ⟨start + before.length, line.length⟩ := by
  induction lines generalizing start number with
  | nil => simp at here
  | cons first rest ih =>
    cases number with
    | zero =>
      obtain rfl : first = line := by simpa using here
      cases rest with
      | nil => exact ⟨[], [], by simp, by simp [extents]⟩
      | cons second others =>
        exact ⟨[], '\n' :: ['\n'].intercalate (second :: others), by
          simp [List.intercalate_cons_cons], by simp [extents]⟩
    | succ number =>
      rw [List.getElem?_cons_succ] at here
      have nonempty : rest ≠ [] := by
        intro empty
        simp [empty] at here
      obtain ⟨before, after, split, place⟩ := ih (start + first.length + 1) here
      refine ⟨first ++ '\n' :: before, after, ?_, ?_⟩
      · rw [List.intercalate_cons_of_ne_nil nonempty, split]
        simp
      · rw [extents, List.getElem?_cons_succ, place]
        simp only [List.length_append, List.length_cons, Option.some.injEq, LineExtent.mk.injEq,
          and_true]
        omega

theorem modifyHead_nil_append (lines : List (List Char)) :
    lines.modifyHead ([] ++ ·) = lines := by
  cases lines <;> rfl

namespace LineIndex

/-- The scanner in the middle of a line, when it has read `passed` of it. -/
theorem scan_eq (start : Nat) (passed text : List Char) :
    scan start passed.length text = extents start ((textLines text).modifyHead (passed ++ ·)) := by
  induction text generalizing start passed with
  | nil => simp [scan, textLines, splitBy, extents]
  | cons c rest ih =>
    rw [scan, textLines_cons]
    by_cases lineFeed : c = '\n'
    · have next := ih (start + passed.length + 1) []
      rw [List.length_nil, modifyHead_nil_append] at next
      simp [lineFeed, extents, next]
    · have next := ih start (passed ++ [c])
      rw [List.length_append, List.length_singleton] at next
      simp [lineFeed, next, Function.comp_def]

theorem lines_ofText (text : List Char) : (ofText text).lines = extents 0 (textLines text) := by
  have scanned := scan_eq 0 [] text
  rw [modifyHead_nil_append] at scanned
  exact scanned

theorem offset_eq {index : LineIndex} {line : Nat} {extent : LineExtent}
    (here : index.lines[line]? = some extent) (column : Nat) :
    index.offset line column = extent.start + min column extent.length := by
  have bound := (List.getElem?_eq_some_iff.1 here).1
  have unclamped : min line (index.count - 1) = line := by
    rw [count]
    omega
  rw [offset, unclamped, here]

theorem exists_entry {text : List Char} {number : Nat} {line : List Char}
    (here : (textLines text)[number]? = some line) :
    ∃ before after, text = before ++ line ++ after ∧
      (ofText text).lines[number]? = some ⟨before.length, line.length⟩ := by
  obtain ⟨before, after, split, entry⟩ := exists_extent 0 here
  rw [intercalate_textLines] at split
  rw [← lines_ofText, Nat.zero_add] at entry
  exact ⟨before, after, split, entry⟩

theorem exists_offset {text : List Char} {number : Nat} {line : List Char}
    (here : (textLines text)[number]? = some line) :
    ∃ before after, text = before ++ line ++ after ∧ ∀ column,
      (ofText text).offset number column = before.length + min column line.length := by
  obtain ⟨before, after, split, entry⟩ := exists_entry here
  exact ⟨before, after, split, offset_eq entry⟩

end LineIndex

theorem dropCarriageReturn_prefix (line : List Char) :
    ∃ ending, line = dropCarriageReturn line ++ ending := by
  rw [dropCarriageReturn]
  split
  case isTrue returns =>
    obtain ⟨start, rfl⟩ := List.getLast?_eq_some_iff.1 returns
    exact ⟨['\r'], by simp⟩
  case isFalse => exact ⟨[], by simp⟩

theorem slice_inner {before inner after : List Char} {start stop : Nat}
    (bound : stop ≤ inner.length) :
    (⟨before.length + start, before.length + stop⟩ : Extent).slice (before ++ inner ++ after) =
      (⟨start, stop⟩ : Extent).slice inner := by
  have size : before.length + stop - (before.length + start) = stop - start := by omega
  rw [Extent.slice, Extent.slice, Extent.length, Extent.length, size, List.append_assoc,
    List.drop_length_add_append]
  by_cases reversed : stop ≤ start
  · simp [Nat.sub_eq_zero_of_le reversed]
  · rw [List.drop_append_of_le_length (by omega), List.take_append_of_le_length]
    rw [List.length_drop]
    omega

theorem characterRange_of_line {text line : List Char} {span : Span}
    (here : (splitLines text)[span.line]? = some line) (ordered : span.start ≤ span.stop)
    (bound : span.stop ≤ line.length) :
    (characterRange (.ofText text) span).length = span.length ∧
      (characterRange (.ofText text) span).slice text =
        (⟨span.start, span.stop⟩ : Extent).slice line := by
  rw [splitLines, List.getElem?_map, Option.map_eq_some_iff] at here
  obtain ⟨whole, found, rfl⟩ := here
  obtain ⟨ending, cut⟩ := dropCarriageReturn_prefix whole
  obtain ⟨before, after, split, offset⟩ := LineIndex.exists_offset found
  have shorter : (dropCarriageReturn whole).length ≤ whole.length := by
    have length := congrArg List.length cut
    rw [List.length_append] at length
    omega
  have range : characterRange (.ofText text) span =
      ⟨before.length + span.start, before.length + span.stop⟩ := by
    simp only [characterRange, offset, Extent.mk.injEq]
    omega
  have around : text = before ++ dropCarriageReturn whole ++ (ending ++ after) := by
    rw [cut] at split
    simpa only [List.append_assoc] using split
  rw [range]
  refine ⟨?_, ?_⟩
  · simp only [Extent.length, Span.length]
    omega
  · rw [around]
    exact slice_inner bound

theorem characterRange_documentStart (text : List Char) :
    characterRange (.ofText text) documentStart =
      ⟨0, min 1 (text.takeWhile (· != '\n')).length⟩ := by
  obtain ⟨others, first⟩ := List.head?_eq_some_iff.1 (head?_textLines text)
  have here : (LineIndex.ofText text).lines[0]? =
      some ⟨0, (text.takeWhile (· != '\n')).length⟩ := by
    rw [LineIndex.lines_ofText, first]
    rfl
  have offset := LineIndex.offset_eq here
  simp only [characterRange, documentStart, offset, Extent.mk.injEq]
  omega

end AsmLint
