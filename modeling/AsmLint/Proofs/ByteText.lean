import AsmLint.Proofs.Statement
import AsmLint.Proofs.TableInvariant

/-! Texts by their bytes. The bytes of a text are listed as the characters of the same numbers, so
that what scans characters can scan bytes. A class of ASCII characters cannot tell the first byte of
a character from the character itself and holds none of the bytes that follow it: a scanner that
asks for such classes alone stops only where a character starts. To cut a text at byte offsets, or
to turn an offset into a column, is a step that can fail here, and it succeeds on every boundary. -/

namespace AsmLint

theorem utf8Length_append (text more : List Char) :
    utf8Length (text ++ more) = utf8Length text + utf8Length more := by
  induction text with
  | nil => rw [List.nil_append, utf8Length, Nat.zero_add]
  | cons c text ih => rw [List.cons_append, utf8Length, utf8Length, ih, Nat.add_assoc]

theorem utf8Length_eq_zero_iff {text : List Char} : utf8Length text = 0 ↔ text = [] := by
  cases text with
  | nil => exact iff_of_true rfl rfl
  | cons c text =>
    have size := c.utf8Size_pos
    rw [utf8Length]
    exact iff_of_false (by omega) (List.cons_ne_nil c text)

theorem byteOffset_left (before rest : List Char) :
    byteOffset (before ++ rest) before.length = utf8Length before := by
  rw [byteOffset, List.take_left]

theorem byteOffset_append (before rest : List Char) (column : Nat) :
    byteOffset (before ++ rest) (before.length + column) =
      utf8Length before + byteOffset rest column := by
  rw [byteOffset, List.take_length_add_append, utf8Length_append, byteOffset]

theorem byteOffset_cons (c : Char) (rest : List Char) (column : Nat) :
    byteOffset (c :: rest) (column + 1) = c.utf8Size + byteOffset rest column := by
  rw [byteOffset, List.take_succ_cons, utf8Length, byteOffset]

theorem byteOffset_le_iff {text : List Char} {a b : Nat} (boundA : a ≤ text.length)
    (boundB : b ≤ text.length) : byteOffset text a ≤ byteOffset text b ↔ a ≤ b := by
  induction text generalizing a b with
  | nil =>
    rw [List.length_nil, Nat.le_zero] at boundA boundB
    rw [boundA, boundB]
    exact iff_of_true Nat.le.refl Nat.le.refl
  | cons c text ih =>
    have size := c.utf8Size_pos
    cases a with
    | zero => simp [byteOffset, utf8Length]
    | succ a =>
      cases b with
      | zero =>
        rw [byteOffset_cons]
        simp only [byteOffset, List.take_zero, utf8Length]
        omega
      | succ b =>
        rw [byteOffset_cons, byteOffset_cons, Nat.add_le_add_iff_left, Nat.add_le_add_iff_right]
        exact ih (Nat.le_of_succ_le_succ boundA) (Nat.le_of_succ_le_succ boundB)

namespace Bytes

def ofChar (c : Char) : List Char := (String.utf8EncodeChar c).map Char.ofUInt8

def view (text : List Char) : List Char := text.flatMap ofChar

def IsAscii (inClass : Char → Bool) : Prop := ∀ c, inClass c = true → c.toNat < 128

def isSingle (c : Char) : Bool := c.toNat < 128

/-- A byte of a character that takes more than one. -/
def isWide (byte : Char) : Bool := 128 ≤ byte.toNat

section Classes

variable {inClass : Char → Bool}

theorem IsAscii.mono {smaller : Char → Bool} (ascii : IsAscii inClass)
    (within : ∀ c, smaller c = true → inClass c = true) : IsAscii smaller :=
  fun c inside => ascii c (within c inside)

theorem IsAscii.outside (ascii : IsAscii inClass) {byte : Char} (wide : isWide byte = true) :
    inClass byte = false := by
  rw [Bool.eq_false_iff]
  intro inside
  have small := ascii byte inside
  have large := of_decide_eq_true wide
  omega

theorem isAscii_beq {d : Char} (small : d.toNat < 128) : IsAscii (· == d) := by
  intro c same
  rw [eq_of_beq same]
  exact small

theorem isAscii_isSingle : IsAscii isSingle := fun _ => of_decide_eq_true

theorem IsAscii.allIn {text : List Char} (ascii : IsAscii inClass) (inside : AllIn inClass text) :
    AllIn isSingle text :=
  fun c member => decide_eq_true (ascii c (inside c member))

theorem isAscii_isNameChar : IsAscii isNameChar := fun _ => toNat_lt_of_isNameChar

theorem isAscii_isNameStart : IsAscii isNameStart :=
  isAscii_isNameChar.mono fun _ => isNameStart_isNameChar

theorem isAscii_isWordChar : IsAscii isWordChar :=
  isAscii_isNameChar.mono fun _ => isNameChar_of_isWordChar

theorem isAscii_isAlpha : IsAscii Char.isAlpha :=
  isAscii_isNameChar.mono fun _ => isNameChar_of_isAlpha

theorem isAscii_isBlank : IsAscii isBlank := by
  intro c blank
  simp only [isBlank, Bool.or_eq_true, beq_iff_eq] at blank
  rcases blank with (((rfl | rfl) | rfl) | rfl) | rfl <;> decide

theorem isAscii_isQuote : IsAscii isQuote := by
  intro c quote
  simp only [isQuote, Bool.or_eq_true, beq_iff_eq] at quote
  rcases quote with (rfl | rfl) | rfl <;> decide

end Classes

theorem utf8Size_of_ascii {c : Char} (small : c.toNat < 128) : c.utf8Size = 1 := by
  rw [Char.utf8Size_eq_one_iff, UInt32.le_iff_toNat_le]
  exact Nat.le_of_lt_succ small

theorem ofChar_of_ascii {c : Char} (small : c.toNat < 128) : ofChar c = [c] := by
  have byte : Char.ofUInt8 c.val.toUInt8 = c := by
    apply Char.ext
    apply UInt32.toNat_inj.1
    change c.val.toUInt8.toNat = c.toNat
    rw [UInt32.toNat_toUInt8]
    exact Nat.mod_eq_of_lt (Nat.lt_trans small (by decide))
  rw [ofChar, String.utf8EncodeChar_eq_singleton (utf8Size_of_ascii small), List.map_singleton,
    byte]

theorem allIn_isWide_ofChar {c : Char} (large : 128 ≤ c.toNat) : AllIn isWide (ofChar c) := by
  have wide : ∀ byte ∈ String.utf8EncodeChar c, 128 ≤ byte.toNat := by
    have number : c.val.toNat = c.toNat := rfl
    simp only [String.utf8EncodeChar, number]
    rw [if_neg (by omega)]
    split_ifs <;> simp <;> omega
  intro byte member
  obtain ⟨encoded, inside, rfl⟩ := List.mem_map.1 member
  exact decide_eq_true (wide encoded inside)

theorem length_ofChar (c : Char) : (ofChar c).length = c.utf8Size := by
  rw [ofChar, List.length_map, String.length_utf8EncodeChar]

/-- No ASCII class tells the first byte of a character from the character, or holds a later one. -/
theorem exists_ofChar (c : Char) :
    ∃ byte more, ofChar c = byte :: more ∧ c.utf8Size = more.length + 1 ∧ AllIn isWide more ∧
      ∀ inClass, IsAscii inClass → inClass byte = inClass c := by
  by_cases small : c.toNat < 128
  · exact ⟨c, [], ofChar_of_ascii small, utf8Size_of_ascii small, allIn_nil _, fun _ _ => rfl⟩
  · have large : 128 ≤ c.toNat := Nat.le_of_not_lt small
    have wide := allIn_isWide_ofChar large
    have size := length_ofChar c
    cases bytes : ofChar c with
    | nil =>
      rw [bytes, List.length_nil] at size
      exact absurd c.utf8Size_pos (by omega)
    | cons byte more =>
      rw [bytes, allIn_cons] at wide
      rw [bytes, List.length_cons] at size
      refine ⟨byte, more, rfl, size.symm, wide.2, fun inClass ascii => ?_⟩
      rw [ascii.outside wide.1, ascii.outside (decide_eq_true large)]

theorem allIn_outside_ofChar {inClass : Char → Bool} (ascii : IsAscii inClass) {c : Char}
    (outside : inClass c = false) : AllIn (fun byte => !inClass byte) (ofChar c) := by
  obtain ⟨byte, more, bytes, -, wide, same⟩ := exists_ofChar c
  rw [bytes, allIn_cons, same inClass ascii, outside]
  exact ⟨rfl, fun later member => by simp [ascii.outside (wide later member)]⟩

@[simp] theorem view_nil : view [] = [] := rfl

theorem view_cons (c : Char) (rest : List Char) : view (c :: rest) = ofChar c ++ view rest :=
  List.flatMap_cons

theorem view_cons_of_ascii {c : Char} (small : c.toNat < 128) (rest : List Char) :
    view (c :: rest) = c :: view rest := by
  rw [view_cons, ofChar_of_ascii small, List.singleton_append]

theorem exists_view_cons {inClass : Char → Bool} (ascii : IsAscii inClass) {c : Char}
    (outside : inClass c = false) (rest : List Char) :
    ∃ byte more, view (c :: rest) = byte :: more ∧ inClass byte = false := by
  obtain ⟨byte, more, bytes, -, -, same⟩ := exists_ofChar c
  exact ⟨byte, more ++ view rest, by rw [view_cons, bytes, List.cons_append],
    by rw [same inClass ascii, outside]⟩

theorem view_append (text more : List Char) : view (text ++ more) = view text ++ view more :=
  List.flatMap_append

@[simp] theorem length_view (text : List Char) : (view text).length = utf8Length text := by
  induction text with
  | nil => rfl
  | cons c text ih => rw [view_cons, List.length_append, length_ofChar, ih, utf8Length]

theorem drop_view (text : List Char) (column : Nat) :
    (view text).drop (byteOffset text column) = view (text.drop column) := by
  have split : view text = view (text.take column) ++ view (text.drop column) := by
    rw [← view_append, List.take_append_drop]
  rw [split, byteOffset, ← length_view, List.drop_left]

section Scans

variable {inClass : Char → Bool} {text body rest : List Char}

theorem view_of_ascii (ascii : IsAscii inClass) (inside : AllIn inClass text) :
    view text = text := by
  induction text with
  | nil => rfl
  | cons c text ih =>
    obtain ⟨first, others⟩ := allIn_cons.1 inside
    rw [view_cons_of_ascii (ascii c first), ih others]

theorem utf8Length_of_ascii (ascii : IsAscii inClass) (inside : AllIn inClass text) :
    utf8Length text = text.length := by
  rw [← length_view, view_of_ascii ascii inside]

theorem head?_view (ascii : IsAscii inClass) (text : List Char) :
    (view text).head?.any inClass = text.head?.any inClass := by
  cases text with
  | nil => rfl
  | cons c text =>
    obtain ⟨byte, more, bytes, -, -, same⟩ := exists_ofChar c
    rw [view_cons, bytes]
    exact same inClass ascii

theorem longestRun_view (ascii : IsAscii inClass) (run : LongestRun inClass text body rest) :
    LongestRun inClass (view text) body (view rest) where
  split := by rw [run.split, view_append, view_of_ascii ascii run.inside]
  inside := run.inside
  stops := by
    rw [startsOutside_iff_any, head?_view ascii, ← startsOutside_iff_any]
    exact run.stops

theorem takeWhile_view (ascii : IsAscii inClass) (text : List Char) :
    (view text).takeWhile inClass = text.takeWhile inClass :=
  (longestRun_view ascii (longestRun_takeWhile inClass text)).takeWhile_eq

theorem dropWhile_view (ascii : IsAscii inClass) (text : List Char) :
    (view text).dropWhile inClass = view (text.dropWhile inClass) :=
  (longestRun_view ascii (longestRun_takeWhile inClass text)).dropWhile_eq

end Scans

/-- A character of the text starts at the offset, or the text ends there. -/
def IsBoundary (text : List Char) (byte : Nat) : Prop :=
  ∃ before after, text = before ++ after ∧ byte = utf8Length before

theorem isBoundary_byteOffset (text : List Char) (column : Nat) :
    IsBoundary text (byteOffset text column) :=
  ⟨text.take column, text.drop column, (List.take_append_drop column text).symm, rfl⟩

theorem isBoundary_of_single {before : List Char} (after : List Char)
    (single : AllIn isSingle before) : IsBoundary (before ++ after) before.length :=
  ⟨before, after, rfl, (utf8Length_of_ascii isAscii_isSingle single).symm⟩

/-- What can go wrong when a text is addressed by bytes and a table by positions. -/
inductive Fault where
  | range (extent : Extent)
  | offset (byte : Nat)
  | position (index : Nat)
  | reversed (error : ReversedSpan)
  | tooDeep
deriving DecidableEq, Repr

theorem ok_bind {α β : Type} (value : α) (next : α → Except Fault β) :
    (Except.ok value >>= next) = next value := rfl

theorem mapM_ok {α β : Type} {step : α → Except Fault β} {result : α → β} {items : List α}
    (ok : ∀ item ∈ items, step item = .ok (result item)) :
    items.mapM step = .ok (items.map result) := by
  induction items with
  | nil => rfl
  | cons item items ih =>
    rw [List.mapM_cons, ok item List.mem_cons_self, ok_bind,
      ih fun other member => ok other (List.mem_cons_of_mem item member), ok_bind]
    rfl

/-- The text between two byte offsets, if both are boundaries in order. -/
def cut? (text : List Char) (range : Extent) : Option (List Char) :=
  match columnAt? text range.start, columnAt? text range.stop with
  | some start, some stop =>
    if start ≤ stop then some (Extent.slice ⟨start, stop⟩ text) else none
  | _, _ => none

def cut (text : List Char) (range : Extent) : Except Fault (List Char) :=
  match cut? text range with
  | some inner => .ok inner
  | none => .error (.range range)

def column (text : List Char) (byte : Nat) : Except Fault Nat :=
  if (columnAt? text byte).isSome then .ok (columnOfByte text byte) else .error (.offset byte)

theorem columnAt?_append (before after : List Char) :
    columnAt? (before ++ after) (utf8Length before) = some before.length := by
  rw [← byteOffset_left before after]
  exact columnAt?_byteOffset _ _ (by simp)

theorem byteOffset_of_columnAt? {text : List Char} {byte column : Nat}
    (found : columnAt? text byte = some column) :
    column ≤ text.length ∧ byteOffset text column = byte := by
  fun_induction columnAt? text byte generalizing column with
  | case1 text =>
    obtain rfl := Option.some.inj found
    exact ⟨Nat.zero_le _, rfl⟩
  | case2 => simp at found
  | case3 c rest byte fits ih =>
    obtain ⟨inner, next, rfl⟩ := Option.map_eq_some_iff.1 found
    obtain ⟨bound, offset⟩ := ih next
    rw [byteOffset_cons, offset, List.length_cons]
    omega
  | case4 => simp at found

theorem append_inj_of_utf8Length {before after first last : List Char}
    (same : before ++ after = first ++ last) (offset : utf8Length before = utf8Length first) :
    before = first ∧ after = last := by
  have column := columnAt?_append before after
  rw [same, offset, columnAt?_append, Option.some.injEq] at column
  exact List.append_inj same column.symm

section Boundaries

variable {text before inner after : List Char}

theorem column_of_append {byte : Nat} (split : text = before ++ after)
    (offset : byte = utf8Length before) : column text byte = .ok before.length := by
  rw [split, offset, column, columnOfByte, columnAt?_append]
  rfl

theorem column_eq_ok_iff {byte place : Nat} :
    column text byte = .ok place ↔
      ∃ before after, text = before ++ after ∧ byte = utf8Length before ∧
        place = before.length := by
  constructor
  · intro found
    rw [column, columnOfByte] at found
    cases here : columnAt? text byte with
    | none => simp [here] at found
    | some start =>
      obtain ⟨bound, offset⟩ := byteOffset_of_columnAt? here
      obtain rfl : start = place := by simpa [here] using found
      exact ⟨text.take start, text.drop start, (List.take_append_drop start text).symm,
        offset.symm, (List.length_take_of_le bound).symm⟩
  · rintro ⟨before, after, split, offset, rfl⟩
    exact column_of_append split offset

theorem column_of_single (split : text = before ++ after) (single : AllIn isSingle before) :
    column text before.length = .ok before.length :=
  column_of_append split (utf8Length_of_ascii isAscii_isSingle single).symm

theorem cut?_of_append {range : Extent} (split : text = before ++ (inner ++ after))
    (starts : range.start = utf8Length before)
    (stops : range.stop = utf8Length before + utf8Length inner) : cut? text range = some inner := by
  have start := columnAt?_append before (inner ++ after)
  have stop := columnAt?_append (before ++ inner) after
  rw [utf8Length_append, List.append_assoc] at stop
  rw [cut?, split, starts, stops, start, stop]
  simp [Extent.slice, Extent.length]

theorem exists_append_of_cut? {range : Extent} (found : cut? text range = some inner) :
    ∃ before after, text = before ++ (inner ++ after) ∧ range.start = utf8Length before ∧
      range.stop = utf8Length before + utf8Length inner := by
  rw [cut?] at found
  split at found
  · rename_i start stop starts stops
    obtain ⟨ordered, same⟩ := Option.ite_none_right_eq_some.1 found
    obtain rfl := Option.some.inj same
    have first := (byteOffset_of_columnAt? starts).2
    have last := (byteOffset_of_columnAt? stops).2
    have taken : text.take stop = text.take start ++ (text.drop start).take (stop - start) := by
      rw [← List.take_add, Nat.add_sub_cancel' ordered]
    refine ⟨text.take start, text.drop stop, ?_, first.symm, ?_⟩
    · rw [Extent.slice, Extent.length, ← List.append_assoc, ← taken, List.take_append_drop]
    · rw [Extent.slice, Extent.length, ← utf8Length_append, ← taken]
      exact last.symm
  · simp at found

theorem cut_of_append {range : Extent} (split : text = before ++ (inner ++ after))
    (starts : range.start = utf8Length before)
    (stops : range.stop = utf8Length before + utf8Length inner) : cut text range = .ok inner := by
  rw [cut, cut?_of_append split starts stops]

theorem cut_eq_ok_iff {range : Extent} :
    cut text range = .ok inner ↔
      ∃ before after, text = before ++ (inner ++ after) ∧ range.start = utf8Length before ∧
        range.stop = utf8Length before + utf8Length inner := by
  constructor
  · intro found
    apply exists_append_of_cut?
    rw [cut] at found
    split at found
    · rename_i taken here
      rw [here, Except.ok.inj found]
    · simp at found
  · rintro ⟨before, after, split, starts, stops⟩
    exact cut_of_append split starts stops

theorem cut_rest (split : text = before ++ after) :
    cut text ⟨utf8Length before, utf8Length text⟩ = .ok after := by
  have whole : text = before ++ (after ++ []) := by rw [split, List.append_nil]
  apply cut_of_append whole rfl
  rw [split, utf8Length_append]

end Boundaries

end Bytes

end AsmLint
