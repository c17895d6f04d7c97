import AsmLint.Json.Reader
import AsmLint.Json.Writer
import AsmLint.Proofs.LongestRun

/-! What is written as JSON is read back. A reader that is given the text of a value and more behind
it takes the value and leaves the rest, in either layout and at any depth of indentation, as long as
the rest does not go on with a number. -/

namespace AsmLint

namespace Json

section Strings

theorem hexUnit?_hexDigit (n : Nat) (small : n < 32) :
    hexUnit? '0' '0' (hexDigit (n / 16)) (hexDigit (n % 16)) = some n := by
  revert n
  decide

theorem readUnits_escapeChar (c : Char) (more : List Char) :
    readUnits (escapeChar c ++ more) =
      (readUnits more).map fun (units, rest) => (c.toNat :: units, rest) := by
  by_cases short : c ∈ ['\x22', '\x5c', '\x08', '\x09', '\x0a', '\x0c', '\x0d']
  · simp only [List.mem_cons, List.not_mem_nil, or_false] at short
    rcases short with rfl | rfl | rfl | rfl | rfl | rfl | rfl <;> rfl
  · simp only [List.mem_cons, List.not_mem_nil, or_false, not_or] at short
    simp only [escapeChar, short, if_false]
    split
    case isTrue control =>
      simp only [List.cons_append, List.nil_append, readUnits, hexUnit?_hexDigit _ control]
    case isFalse printable =>
      rw [List.cons_append, List.nil_append, readUnits, if_neg printable]
      all_goals simp [short]

theorem readUnits_flatMap_escapeChar (text more : List Char) :
    readUnits (text.flatMap escapeChar ++ '\x22' :: more) = some (text.map Char.toNat, more) := by
  induction text with
  | nil => rfl
  | cons c text ih =>
    rw [List.flatMap_cons, List.append_assoc, readUnits_escapeChar, ih]
    rfl

theorem not_surrogate (c : Char) :
    isHighSurrogate c.toNat = false ∧ isLowSurrogate c.toNat = false := by
  have valid : c.toNat < 0xd800 ∨ 0xdfff < c.toNat ∧ c.toNat < 0x110000 := c.valid
  simp only [isHighSurrogate, isLowSurrogate, Bool.and_eq_false_iff, decide_eq_false_iff_not]
  omega

theorem joinUnits_map_toNat (text : List Char) : joinUnits (text.map Char.toNat) = some text := by
  induction text with
  | nil => rfl
  | cons c text ih =>
    cases text with
    | nil => simp [joinUnits, not_surrogate]
    | cons next text =>
      rw [List.map_cons, List.map_cons, joinUnits, ← List.map_cons, ih]
      simp [not_surrogate]

theorem writeText_append (text : String) (more : List Char) :
    writeText text ++ more = '\x22' :: (text.toList.flatMap escapeChar ++ '\x22' :: more) := by
  simp [writeText]

theorem readString_flatMap_escapeChar (text : String) (more : List Char) :
    readString (text.toList.flatMap escapeChar ++ '\x22' :: more) = some (some text, more) := by
  rw [readString, readUnits_flatMap_escapeChar, Option.map_some]
  simp only [joinUnits_map_toNat, Option.map_some, String.ofList_toList]

end Strings

section Numbers

def continuesNumber (c : Char) : Bool := c.isDigit || c == '.' || c == 'e' || c == 'E'

theorem isDigit_toDigits (n : Nat) : AllIn Char.isDigit (Nat.toDigits 10 n) :=
  fun _ member => Nat.isDigit_of_mem_toDigits (by decide) (by decide) member

theorem toDigits_eq_cons (n : Nat) :
    ∃ c digits, Nat.toDigits 10 n = c :: digits ∧ c.isDigit = true := by
  obtain ⟨c, digits, spelled⟩ := List.exists_cons_of_ne_nil (@Nat.toDigits_ne_nil n 10)
  exact ⟨c, digits, spelled, isDigit_toDigits n c (spelled ▸ List.mem_cons_self)⟩

theorem ne_of_isDigit {c d : Char} (digit : c.isDigit = true) (other : d.isDigit = false) :
    c ≠ d := by
  rintro rfl
  simp [digit] at other

theorem startsOutside_zero_toDigits (n : Nat) (positive : 0 < n) :
    StartsOutside (· == '0') (Nat.toDigits 10 n) := by
  induction n using Nat.strongRecOn with
  | _ n ih =>
    rw [Nat.toDigits_eq_if (by decide)]
    split
    case isTrue small =>
      have single : ∀ n < 10, 0 < n → (n.digitChar == '0') = false := by decide
      exact startsOutside_cons.2 (single n small positive)
    case isFalse large =>
      rw [startsOutside_append Nat.toDigits_ne_nil]
      exact ih (n / 10) (by omega) (by omega)

variable {rest : List Char}

theorem wholeDigits_toDigits (n : Nat) (ends : StartsOutside Char.isDigit rest) :
    wholeDigits (Nat.toDigits 10 n ++ rest) = (Nat.toDigits 10 n, rest) := by
  have run : LongestRun Char.isDigit (Nat.toDigits 10 n ++ rest) (Nat.toDigits 10 n) rest :=
    ⟨rfl, isDigit_toDigits n, ends⟩
  unfold wholeDigits
  split
  case h_1 tail zero =>
    cases n with
    | zero =>
      rw [Nat.toDigits_zero, List.singleton_append, List.cons.injEq] at zero
      rw [Nat.toDigits_zero, zero.2]
    | succ n =>
      have first := startsOutside_zero_toDigits (n + 1) (by omega)
      rw [← startsOutside_append Nat.toDigits_ne_nil rest, zero] at first
      simp at first
  case h_2 => rw [run.takeWhile_eq, run.dropWhile_eq]

theorem fractionPart_eq (ends : StartsOutside continuesNumber rest) :
    fractionPart rest = ([], rest) := by
  unfold fractionPart
  split
  · simp [continuesNumber] at ends
  · rfl

theorem exponentPart_eq (ends : StartsOutside continuesNumber rest) :
    exponentPart rest = ([], rest) := by
  cases rest with
  | nil => rfl
  | cons c rest =>
    rw [startsOutside_cons, continuesNumber, Bool.or_eq_false_iff, Bool.or_eq_false_iff] at ends
    simp [exponentPart, ends]

theorem readNumber_writeInt (value : Int) (ends : StartsOutside continuesNumber rest) :
    readNumber (writeInt value ++ rest) = some (.int value, rest) := by
  have digitsEnd : StartsOutside Char.isDigit rest :=
    ends.mono fun c digit => by simp [continuesNumber, digit]
  cases value with
  | ofNat n =>
    have unsigned (tail : List Char) : Nat.toDigits 10 n ++ rest ≠ '-' :: tail := by
      obtain ⟨c, digits, spelled, digit⟩ := toDigits_eq_cons n
      have different : c ≠ '-' := ne_of_isDigit digit (by decide)
      simp [spelled, different]
    simp [readNumber, writeInt, wholeDigits_toDigits _ digitsEnd, fractionPart_eq ends,
      exponentPart_eq ends, digitsValue_toDigits, Nat.toDigits_ne_nil]
  | negSucc n =>
    have nonzero : Nat.toDigits 10 (n + 1) ≠ ['0'] := by
      intro zero
      have first := startsOutside_zero_toDigits (n + 1) (by omega) '0'
      simp [zero] at first
    simp only [readNumber, writeInt, List.cons_append, wholeDigits_toDigits _ digitsEnd,
      fractionPart_eq ends, exponentPart_eq ends, digitsValue_toDigits]
    rw [if_neg (by simp [Nat.toDigits_ne_nil]), if_pos (by simp [nonzero])]
    rfl

end Numbers

section Space

variable {gap text : List Char}

theorem skipSpace_append (blank : AllIn isJsonSpace gap) (text : List Char) :
    skipSpace (gap ++ text) = skipSpace text :=
  List.dropWhile_append_of_pos blank

theorem skipSpace_cons {c : Char} (solid : isJsonSpace c = false) (text : List Char) :
    skipSpace (c :: text) = c :: text :=
  List.dropWhile_cons_of_neg (by simp [solid])

theorem readValue_append (blank : AllIn isJsonSpace gap) (fuel : Nat) (text : List Char) :
    readValue fuel (gap ++ text) = readValue fuel text := by
  cases fuel with
  | zero => rw [readValue, readValue]
  | succ fuel => rw [readValue, readValue, skipSpace_append blank]

theorem Layout.newline_blank (layout : Layout) (depth : Nat) :
    AllIn isJsonSpace (layout.newline depth) := by
  cases layout with
  | compact => exact allIn_nil _
  | pretty =>
    refine allIn_cons.2 ⟨rfl, fun c member => ?_⟩
    rw [List.eq_of_mem_replicate member]
    rfl

theorem Layout.colon_eq (layout : Layout) : layout.colon = ':' :: layout.colon.tail := by
  cases layout <;> rfl

theorem Layout.colon_tail_blank (layout : Layout) : AllIn isJsonSpace layout.colon.tail := by
  cases layout <;> decide

end Space

section Steps

variable {fuel : Nat} {gap text rest more : List Char} {item value : Json} {key : String}
  {items : List Json} {members : List (String × Json)}

theorem readValue_list {c : Char} (blank : AllIn isJsonSpace gap)
    (opens : (isJsonSpace c || c == ']') = false)
    (first : readValue fuel (c :: text) = some (item, rest))
    (others : readItems fuel rest = some (items, more)) :
    readValue (fuel + 1) ('[' :: (gap ++ c :: text)) = some (.list (item :: items), more) := by
  rw [Bool.or_eq_false_iff] at opens
  have body : skipSpace (gap ++ c :: text) = c :: text :=
    (skipSpace_append blank _).trans (skipSpace_cons opens.1 text)
  rw [readValue, skipSpace_cons rfl]
  simp only [body]
  split
  case h_1 closing =>
    rw [(List.cons.inj closing).1] at opens
    simp at opens
  case h_2 => simp only [first, others]

theorem readItems_comma (first : readValue fuel text = some (item, rest))
    (others : readItems fuel rest = some (items, more)) :
    readItems (fuel + 1) (',' :: text) = some (item :: items, more) := by
  rw [readItems, skipSpace_cons rfl]
  simp only [first, others]

theorem readItems_close (blank : AllIn isJsonSpace gap) (more : List Char) :
    readItems (fuel + 1) (gap ++ ']' :: more) = some ([], more) := by
  rw [readItems, skipSpace_append blank, skipSpace_cons rfl]
  rfl

theorem readKey_writeText (blank : AllIn isJsonSpace gap) (layout : Layout) (key : String)
    (more : List Char) :
    readKey (gap ++ (writeText key ++ (layout.colon ++ more))) =
      some (some key, layout.colon.tail ++ more) := by
  have colon : skipSpace (layout.colon ++ more) = ':' :: (layout.colon.tail ++ more) := by
    rw [layout.colon_eq]
    exact skipSpace_cons rfl _
  rw [readKey, skipSpace_append blank, writeText_append, skipSpace_cons rfl]
  simp only [readString_flatMap_escapeChar, colon]

theorem readValue_object (blank : AllIn isJsonSpace gap) (layout : Layout)
    (first : readValue fuel text = some (value, rest))
    (others : readMembers fuel rest = some (some members, more)) :
    readValue (fuel + 1) ('\x7b' :: (gap ++ (writeText key ++ (layout.colon ++ text)))) =
      some (.object ((key, value) :: members), more) := by
  have body : skipSpace (gap ++ (writeText key ++ (layout.colon ++ text))) =
      [] ++ (writeText key ++ (layout.colon ++ text)) :=
    (skipSpace_append blank _).trans (skipSpace_cons rfl _)
  rw [readValue, skipSpace_cons rfl]
  simp only [body]
  split
  case h_1 closing => simp [writeText] at closing
  case h_2 =>
    rw [readKey_writeText (allIn_nil _)]
    simp only [readValue_append layout.colon_tail_blank, first, others]
    rfl

theorem readMembers_comma (blank : AllIn isJsonSpace gap) (layout : Layout)
    (first : readValue fuel text = some (value, rest))
    (others : readMembers fuel rest = some (some members, more)) :
    readMembers (fuel + 1) (',' :: (gap ++ (writeText key ++ (layout.colon ++ text)))) =
      some (some ((key, value) :: members), more) := by
  rw [readMembers, skipSpace_cons rfl]
  simp only [readKey_writeText blank, readValue_append layout.colon_tail_blank, first, others]
  rfl

theorem readMembers_close (blank : AllIn isJsonSpace gap) (more : List Char) :
    readMembers (fuel + 1) (gap ++ '\x7d' :: more) = some (some [], more) := by
  rw [readMembers, skipSpace_append blank, skipSpace_cons rfl]
  rfl

end Steps

/-- A value that is determined by its text. A numeral kept as it is written need not be one that is
kept when it is read, and what is unreadable has the text of another value. -/
inductive Plain : Json → Prop
  | null : Plain .null
  | bool (value : Bool) : Plain (.bool value)
  | int (value : Int) : Plain (.int value)
  | string (value : String) : Plain (.string value)
  | list {items : List Json} (each : ∀ item ∈ items, Plain item) : Plain (.list items)
  | object {members : List (String × Json)} (each : ∀ member ∈ members, Plain member.2) :
    Plain (.object members)

def ReadsBack (value : Json) : Prop :=
  ∀ layout depth fuel rest, (write layout depth value).length ≤ fuel →
    StartsOutside continuesNumber rest →
    readValue fuel (write layout depth value ++ rest) = some (value, rest)

theorem writeInt_eq_cons (value : Int) :
    ∃ c digits, writeInt value = c :: digits ∧
      ∀ d : Char, d.isDigit = false → d ≠ '-' → c ≠ d := by
  cases value with
  | ofNat n =>
    obtain ⟨c, digits, spelled, digit⟩ := toDigits_eq_cons n
    exact ⟨c, digits, spelled, fun d other _ => ne_of_isDigit digit other⟩
  | negSucc n => exact ⟨'-', _, rfl, fun d _ other => other.symm⟩

theorem Plain.write_eq_cons {value : Json} (plain : Plain value) (layout : Layout) (depth : Nat) :
    ∃ c text, write layout depth value = c :: text ∧ (isJsonSpace c || c == ']') = false := by
  cases plain with
  | null => exact ⟨'n', _, rfl, rfl⟩
  | bool value => cases value <;> exact ⟨_, _, rfl, rfl⟩
  | int value =>
    obtain ⟨c, digits, spelled, other⟩ := writeInt_eq_cons value
    refine ⟨c, digits, by rw [write, spelled], ?_⟩
    simp only [isJsonSpace, Bool.or_eq_false_iff, beq_eq_false_iff_ne]
    exact ⟨⟨⟨⟨other _ (by decide) (by decide), other _ (by decide) (by decide)⟩,
      other _ (by decide) (by decide)⟩, other _ (by decide) (by decide)⟩,
      other _ (by decide) (by decide)⟩
  | string value => exact ⟨_, _, rfl, rfl⟩
  | @list items each => cases items <;> exact ⟨_, _, rfl, rfl⟩
  | @object members each => cases members <;> exact ⟨_, _, rfl, rfl⟩

theorem readValue_writeInt (value : Int) {rest : List Char}
    (ends : StartsOutside continuesNumber rest) (fuel : Nat) :
    readValue (fuel + 1) (writeInt value ++ rest) = some (.int value, rest) := by
  obtain ⟨c, digits, spelled, other⟩ := writeInt_eq_cons value
  have start : skipSpace (writeInt value ++ rest) = writeInt value ++ rest := by
    obtain ⟨_, _, same, solid⟩ := (Plain.int value).write_eq_cons .compact 0
    rw [write] at same
    rw [same]
    exact skipSpace_cons (Bool.or_eq_false_iff.1 solid).1 _
  rw [readValue, start]
  split
  case h_7 => exact readNumber_writeInt value ends
  all_goals
    rename_i opens
    rw [spelled] at opens
    exact absurd (List.cons.inj opens).1 (other _ (by decide) (by decide))

section Sequences

variable {layout : Layout} {depth : Nat} {items : List Json} {members : List (String × Json)}

theorem startsOutside_writeItems (rest : List Char) :
    StartsOutside continuesNumber (writeItems layout depth items ++ rest) := by
  cases items with
  | nil => cases layout <;> exact startsOutside_cons.2 rfl
  | cons item items => exact startsOutside_cons.2 rfl

theorem startsOutside_writeMembers (rest : List Char) :
    StartsOutside continuesNumber (writeMembers layout depth members ++ rest) := by
  cases members with
  | nil => cases layout <;> exact startsOutside_cons.2 rfl
  | cons member members => exact startsOutside_cons.2 rfl

theorem readItems_writeItems (each : ∀ item ∈ items, ReadsBack item) {fuel : Nat}
    (enough : (writeItems layout depth items).length ≤ fuel) (rest : List Char) :
    readItems fuel (writeItems layout depth items ++ rest) = some (items, rest) := by
  induction items generalizing fuel with
  | nil =>
    cases fuel with
    | zero => simp [writeItems] at enough
    | succ fuel =>
      rw [writeItems, List.append_assoc]
      exact readItems_close (layout.newline_blank depth) rest
  | cons item items ih =>
    cases fuel with
    | zero => simp [writeItems] at enough
    | succ fuel =>
      simp only [writeItems, List.cons_append, List.append_assoc, List.length_cons,
        List.length_append] at enough ⊢
      apply readItems_comma
      · rw [readValue_append (layout.newline_blank _)]
        exact each item List.mem_cons_self _ _ _ _ (by omega) (startsOutside_writeItems rest)
      · exact ih (fun item member => each item (List.mem_cons_of_mem _ member)) (by omega)

theorem readMembers_writeMembers (each : ∀ member ∈ members, ReadsBack member.2) {fuel : Nat}
    (enough : (writeMembers layout depth members).length ≤ fuel) (rest : List Char) :
    readMembers fuel (writeMembers layout depth members ++ rest) = some (some members, rest) := by
  induction members generalizing fuel with
  | nil =>
    cases fuel with
    | zero => simp [writeMembers] at enough
    | succ fuel =>
      rw [writeMembers, List.append_assoc]
      exact readMembers_close (layout.newline_blank depth) rest
  | cons member members ih =>
    cases fuel with
    | zero => simp [writeMembers] at enough
    | succ fuel =>
      simp only [writeMembers, List.cons_append, List.append_assoc, List.length_cons,
        List.length_append] at enough ⊢
      apply readMembers_comma (layout.newline_blank _)
      · exact each member List.mem_cons_self _ _ _ _ (by omega) (startsOutside_writeMembers rest)
      · exact ih (fun member listed => each member (List.mem_cons_of_mem _ listed)) (by omega)

end Sequences

/-- The text of a value is not empty, so there is always fuel for one step. -/
theorem Plain.readsBack_of_step {value : Json} (plain : Plain value)
    (step : ∀ layout depth fuel rest, (write layout depth value).length ≤ fuel + 1 →
      StartsOutside continuesNumber rest →
      readValue (fuel + 1) (write layout depth value ++ rest) = some (value, rest)) :
    ReadsBack value := by
  intro layout depth fuel rest enough ends
  cases fuel with
  | zero =>
    obtain ⟨c, text, spelled, -⟩ := plain.write_eq_cons layout depth
    simp [spelled] at enough
  | succ fuel => exact step layout depth fuel rest enough ends

/-- The fuel counts characters: what stands inside brackets has one character less to be read. -/
theorem Plain.readsBack {value : Json} (plain : Plain value) : ReadsBack value := by
  induction plain with
  | null =>
    refine Plain.null.readsBack_of_step fun layout depth fuel rest _ _ => ?_
    rw [write, readValue]
    rfl
  | bool value =>
    refine (Plain.bool value).readsBack_of_step fun layout depth fuel rest _ _ => ?_
    cases value <;> rw [write, readValue] <;> rfl
  | int value =>
    refine (Plain.int value).readsBack_of_step fun layout depth fuel rest _ ends => ?_
    rw [write]
    exact readValue_writeInt value ends fuel
  | string value =>
    refine (Plain.string value).readsBack_of_step fun layout depth fuel rest _ _ => ?_
    rw [write, writeText_append, readValue, skipSpace_cons rfl]
    simp only [readString_flatMap_escapeChar]
  | @list items each ih =>
    refine (Plain.list each).readsBack_of_step fun layout depth fuel rest enough _ => ?_
    cases items with
    | nil =>
      rw [write, readValue]
      rfl
    | cons item items =>
      simp only [write, List.cons_append, List.append_assoc, List.length_cons,
        List.length_append] at enough ⊢
      obtain ⟨c, text, spelled, opens⟩ :=
        (each item List.mem_cons_self).write_eq_cons layout (depth + 1)
      have first := ih item List.mem_cons_self layout (depth + 1) fuel _ (by omega)
        (@startsOutside_writeItems layout depth items rest)
      rw [spelled, List.length_cons] at enough
      rw [spelled, List.cons_append] at first ⊢
      apply readValue_list (layout.newline_blank _) opens first
      apply readItems_writeItems fun item member => ih item (List.mem_cons_of_mem _ member)
      omega
  | @object members each ih =>
    refine (Plain.object each).readsBack_of_step fun layout depth fuel rest enough _ => ?_
    cases members with
    | nil =>
      rw [write, readValue]
      rfl
    | cons member members =>
      simp only [write, List.cons_append, List.append_assoc, List.length_cons,
        List.length_append] at enough ⊢
      apply readValue_object (layout.newline_blank _)
      · exact ih member List.mem_cons_self _ _ _ _ (by omega) (startsOutside_writeMembers rest)
      · apply readMembers_writeMembers fun member listed =>
          ih member (List.mem_cons_of_mem _ listed)
        omega

theorem read_write {value : Json} (plain : Plain value) (layout : Layout) (depth : Nat) :
    read (String.ofList (write layout depth value)) = some value := by
  have whole := plain.readsBack layout depth ((write layout depth value).length + 1) [] (by omega)
    (startsOutside_nil _)
  rw [List.append_nil] at whole
  rw [read, String.toList_ofList]
  simp only [whole]
  rfl

end Json

end AsmLint
