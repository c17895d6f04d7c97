import AsmLint.Proofs.LineIndex
import Mathlib.Data.Prod.Lex

/-! Places of a text. A place is a line with a column on it, and the column after the last character
is one more place of the line: it is where the line feed stands, or where the text ends. The index
of a text numbers its places from zero in reading order and leaves none out. Lines are the pieces
between line feeds here, carriage returns included. -/

namespace AsmLint

def IsPlace (lines : List (List Char)) (place : Nat × Nat) : Prop :=
  ∃ line, lines[place.1]? = some line ∧ place.2 ≤ line.length

/-- A line past the end stands for the last line, a column past the end for the end of its line. -/
def clampPlace (lines : List (List Char)) (line column : Nat) : Nat × Nat :=
  let last := min line (lines.length - 1)
  (last, min column (lines.getD last []).length)

section Extents

@[simp] theorem length_extents (start : Nat) (lines : List (List Char)) :
    (extents start lines).length = lines.length := by
  induction lines generalizing start with
  | nil => rfl
  | cons line lines ih => rw [extents, List.length_cons, List.length_cons, ih]

theorem start_le_of_mem_extents {start : Nat} {lines : List (List Char)} {extent : LineExtent}
    (member : extent ∈ extents start lines) : start ≤ extent.start := by
  induction lines generalizing start with
  | nil => simp [extents] at member
  | cons line lines ih =>
    rcases List.mem_cons.1 member with rfl | later
    · exact Nat.le_refl _
    · have bound := ih later
      omega

theorem pairwise_extents (start : Nat) (lines : List (List Char)) :
    (extents start lines).Pairwise fun a b => a.start + a.length < b.start := by
  induction lines generalizing start with
  | nil => exact .nil
  | cons line lines ih =>
    refine List.pairwise_cons.2 ⟨fun extent member => ?_, ih _⟩
    have bound := start_le_of_mem_extents member
    dsimp only
    omega

theorem exists_extent_around (start : Nat) {lines : List (List Char)} (nonempty : lines ≠ [])
    {offset : Nat} (bound : offset ≤ (['\n'].intercalate lines).length) :
    ∃ (number : Nat) (extent : LineExtent), (extents start lines)[number]? = some extent ∧
      extent.start ≤ start + offset ∧ start + offset ≤ extent.start + extent.length := by
  induction lines generalizing start offset with
  | nil => exact absurd rfl nonempty
  | cons line lines ih =>
    by_cases here : offset ≤ line.length
    · exact ⟨0, ⟨start, line.length⟩, rfl, by dsimp only; omega, by dsimp only; omega⟩
    · have more : lines ≠ [] := by
        rintro rfl
        rw [List.intercalate_singleton] at bound
        exact here bound
      rw [List.intercalate_cons_of_ne_nil more] at bound
      simp only [List.length_append, List.length_singleton] at bound
      obtain ⟨number, extent, found, above, below⟩ :=
        @ih (start + line.length + 1) more (offset - line.length - 1) (by omega)
      exact ⟨number + 1, extent, found, by omega, by omega⟩

end Extents

theorem textLines_eq_splitOn (text : List Char) : textLines text = text.splitOn '\n' :=
  splitBy_eq_splitOnP _ text

namespace LineIndex

variable {text : List Char}

theorem count_ofText (text : List Char) : (ofText text).count = (textLines text).length := by
  rw [count, lines_ofText, length_extents]

theorem isPlace_iff {place : Nat × Nat} :
    IsPlace (textLines text) place ↔
      ∃ extent, (ofText text).lines[place.1]? = some extent ∧ place.2 ≤ extent.length := by
  constructor
  · intro isPlace
    obtain ⟨line, here, bound⟩ := isPlace
    obtain ⟨before, after, -, entry⟩ := exists_entry here
    exact ⟨_, entry, bound⟩
  · intro found
    obtain ⟨extent, entry, bound⟩ := found
    have inside := (List.getElem?_eq_some_iff.1 entry).1
    rw [← count, count_ofText] at inside
    have here := List.getElem?_eq_getElem inside
    obtain ⟨before, after, -, same⟩ := exists_entry here
    obtain rfl := Option.some.inj (entry.symm.trans same)
    exact ⟨_, here, bound⟩

theorem offset_lt_offset {a b : Nat × Nat} (isPlaceA : IsPlace (textLines text) a)
    (isPlaceB : IsPlace (textLines text) b) (before : toLex a < toLex b) :
    (ofText text).offset a.1 a.2 < (ofText text).offset b.1 b.2 := by
  obtain ⟨first, entryA, boundA⟩ := isPlace_iff.1 isPlaceA
  obtain ⟨second, entryB, boundB⟩ := isPlace_iff.1 isPlaceB
  rw [offset_eq entryA, offset_eq entryB, Nat.min_eq_left boundA, Nat.min_eq_left boundB]
  -- Different lines have a line feed between them; on one line the columns decide.
  rcases Prod.Lex.toLex_lt_toLex.1 before with lines | ⟨line, columns⟩
  · obtain ⟨insideA, hereA⟩ := List.getElem?_eq_some_iff.1 entryA
    obtain ⟨insideB, hereB⟩ := List.getElem?_eq_some_iff.1 entryB
    have ordered := pairwise_extents 0 (textLines text)
    rw [← lines_ofText, List.pairwise_iff_getElem] at ordered
    have apart := ordered a.1 b.1 insideA insideB lines
    rw [hereA, hereB] at apart
    omega
  · rw [line, entryB] at entryA
    obtain rfl := Option.some.inj entryA
    omega

theorem eq_of_offset_eq {a b : Nat × Nat} (isPlaceA : IsPlace (textLines text) a)
    (isPlaceB : IsPlace (textLines text) b)
    (same : (ofText text).offset a.1 a.2 = (ofText text).offset b.1 b.2) : a = b := by
  rcases lt_trichotomy (toLex a) (toLex b) with less | equal | greater
  · exact absurd same (Nat.ne_of_lt (offset_lt_offset isPlaceA isPlaceB less))
  · exact toLex_inj.1 equal
  · exact absurd same.symm (Nat.ne_of_lt (offset_lt_offset isPlaceB isPlaceA greater))

theorem exists_place {offset : Nat} (bound : offset ≤ text.length) :
    ∃ place, IsPlace (textLines text) place ∧
      (ofText text).offset place.1 place.2 = offset := by
  have nonempty : textLines text ≠ [] := by
    rw [← List.length_pos_iff, ← count_ofText]
    exact count_pos text
  rw [← intercalate_textLines text] at bound
  obtain ⟨number, extent, entry, above, below⟩ := exists_extent_around 0 nonempty bound
  rw [← lines_ofText] at entry
  refine ⟨(number, offset - extent.start), isPlace_iff.2 ⟨extent, entry, ?_⟩, ?_⟩
  · dsimp only
    omega
  · rw [offset_eq entry]
    omega

theorem exists_clampPlace (text : List Char) (number column : Nat) :
    ∃ line, (textLines text)[min number ((ofText text).count - 1)]? = some line ∧
      clampPlace (textLines text) number column =
        (min number ((ofText text).count - 1), min column line.length) := by
  have positive := count_pos text
  have inside : min number ((ofText text).count - 1) < (textLines text).length := by
    rw [← count_ofText]
    omega
  have here := List.getElem?_eq_getElem inside
  refine ⟨_, here, ?_⟩
  rw [clampPlace, ← count_ofText, List.getD_eq_getElem?_getD, here, Option.getD_some]

theorem isPlace_clampPlace (text : List Char) (number column : Nat) :
    IsPlace (textLines text) (clampPlace (textLines text) number column) := by
  obtain ⟨line, here, place⟩ := exists_clampPlace text number column
  rw [place]
  exact ⟨line, here, Nat.min_le_right _ _⟩

theorem offset_clampPlace (text : List Char) (number column : Nat) :
    (ofText text).offset number column =
      (ofText text).offset (clampPlace (textLines text) number column).1
        (clampPlace (textLines text) number column).2 := by
  obtain ⟨line, here, place⟩ := exists_clampPlace text number column
  obtain ⟨before, after, -, entry⟩ := exists_entry here
  rw [place, offset_eq entry, Nat.min_assoc, Nat.min_self, offset, entry]

theorem offset_le_length (text : List Char) (number column : Nat) :
    (ofText text).offset number column ≤ text.length := by
  obtain ⟨line, here, place⟩ := exists_clampPlace text number column
  obtain ⟨before, after, split, entry⟩ := exists_entry here
  have length := congrArg List.length split
  rw [List.length_append, List.length_append] at length
  rw [offset_clampPlace, place, offset_eq entry]
  dsimp only
  omega

theorem exists_start {number : Nat} {line : List Char}
    (here : (textLines text)[number]? = some line) :
    ∃ start, (ofText text).start? number = some start ∧
      (text.drop start).take line.length = line := by
  obtain ⟨before, after, split, entry⟩ := exists_entry here
  refine ⟨before.length, by rw [start?, entry, Option.map_some], ?_⟩
  rw [split, List.append_assoc, List.drop_left, List.take_left]

/-- The index numbers the places of a text that consists of the lines: each offset is the number of
one place, later places have greater numbers, and a line is what the text holds from its start on.
Two numbers that are no place of the text stand for the place that they are clamped to. -/
structure Numbers (index : LineIndex) (text : List Char) (lines : List (List Char)) : Prop where
  counted : index.count = lines.length
  unique : ∀ offset ≤ text.length, ∃! place : Nat × Nat,
    IsPlace lines place ∧ index.offset place.1 place.2 = offset
  increasing : ∀ a b, IsPlace lines a → IsPlace lines b → toLex a < toLex b →
    index.offset a.1 a.2 < index.offset b.1 b.2
  lineAt : ∀ number line, lines[number]? = some line →
    ∃ start, index.start? number = some start ∧ (text.drop start).take line.length = line
  bounded : ∀ number column, index.offset number column ≤ text.length
  clamped : ∀ number column, IsPlace lines (clampPlace lines number column) ∧
    index.offset number column =
      index.offset (clampPlace lines number column).1 (clampPlace lines number column).2

end LineIndex

theorem index_numbers_places (text : List Char) :
    (LineIndex.ofText text).Numbers text (text.splitOn '\n') ∧
      (splitLines text).length = (text.splitOn '\n').length := by
  rw [← textLines_eq_splitOn]
  constructor
  · exact {
      counted := LineIndex.count_ofText text
      unique := by
        intro offset bound
        obtain ⟨place, isPlace, here⟩ := LineIndex.exists_place bound
        refine ⟨place, ⟨isPlace, here⟩, ?_⟩
        rintro other ⟨otherPlace, there⟩
        exact LineIndex.eq_of_offset_eq otherPlace isPlace (there.trans here.symm)
      increasing := fun _ _ => LineIndex.offset_lt_offset
      lineAt := fun _ _ => LineIndex.exists_start
      bounded := LineIndex.offset_le_length text
      clamped := fun number column =>
        ⟨LineIndex.isPlace_clampPlace text number column,
          LineIndex.offset_clampPlace text number column⟩ }
  · rw [splitLines, List.length_map, textLines]

end AsmLint
