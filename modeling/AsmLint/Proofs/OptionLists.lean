import AsmLint.Proofs.DeclaredKeys

/-! Where an option list ends. Cutting a rule into units and searching it for keys both leave an
option list at its first closing bracket. The slot of the list is read from a unit whose last
character is a bracket. So the slot has the words up to the first bracket exactly if the unit ends
there. -/

namespace AsmLint

section Words

structure WordIn (text word : List Char) : Prop where
  nonempty : word ≠ []
  stretch : ∃ before rest after, text = before ++ rest ∧ EndsOutside (!isSpace ·) before ∧
    LongestRun (!isSpace ·) rest word after

theorem endsOutside_cons {inClass : Char → Bool} {c : Char} {text : List Char} :
    EndsOutside inClass (c :: text) ↔
      if text = [] then inClass c = false else EndsOutside inClass text := by
  by_cases empty : text = []
  · simp [empty, EndsOutside]
  · rw [if_neg empty, EndsOutside, EndsOutside, List.getLast?_cons_of_ne_nil empty]

theorem splitBy_eq_cons {separates : Char → Bool} {text first : List Char}
    {pieces : List (List Char)} (split : splitBy separates text = first :: pieces) :
    first = text.takeWhile (!separates ·) ∧
      ∀ piece, piece ∈ pieces ↔ ∃ before rest, before ≠ [] ∧ text = before ++ rest ∧
        EndsOutside (!separates ·) before ∧ piece = rest.takeWhile (!separates ·) := by
  induction text generalizing first pieces with
  | nil =>
    obtain ⟨rfl, rfl⟩ := List.cons.inj split
    refine ⟨rfl, fun piece => ?_⟩
    simp +contextual
  | cons c rest ih =>
    obtain ⟨second, later, found⟩ := List.exists_cons_of_ne_nil (splitBy_ne_nil separates rest)
    obtain ⟨starts, others⟩ := ih found
    rw [splitBy, found] at split
    by_cases stops : separates c = true
    · rw [if_pos stops] at split
      obtain ⟨rfl, rfl⟩ := List.cons.inj split
      refine ⟨by simp [stops], fun piece => ?_⟩
      rw [List.mem_cons, others]
      constructor
      · rintro (rfl | ⟨before, tail, nonempty, rfl, ends, rfl⟩)
        · exact ⟨[c], rest, by simp, rfl, by simp [EndsOutside, stops], starts⟩
        · refine ⟨c :: before, tail, by simp, rfl, ?_, rfl⟩
          rwa [endsOutside_cons, if_neg nonempty]
      · rintro ⟨before, tail, nonempty, whole, ends, rfl⟩
        obtain ⟨d, before, rfl⟩ := List.exists_cons_of_ne_nil nonempty
        obtain ⟨rfl, rfl⟩ := List.cons.inj whole
        by_cases empty : before = []
        · subst empty
          exact .inl starts.symm
        · rw [endsOutside_cons, if_neg empty] at ends
          exact .inr ⟨before, tail, empty, rfl, ends, rfl⟩
    · rw [if_neg stops] at split
      obtain ⟨rfl, rfl⟩ := List.cons.inj split
      refine ⟨by simp [stops, starts], fun piece => ?_⟩
      rw [others]
      constructor
      · rintro ⟨before, tail, nonempty, rfl, ends, rfl⟩
        refine ⟨c :: before, tail, by simp, rfl, ?_, rfl⟩
        rwa [endsOutside_cons, if_neg nonempty]
      · rintro ⟨before, tail, nonempty, whole, ends, rfl⟩
        obtain ⟨d, before, rfl⟩ := List.exists_cons_of_ne_nil nonempty
        obtain ⟨rfl, rfl⟩ := List.cons.inj whole
        by_cases empty : before = []
        · simp [empty, EndsOutside, stops] at ends
        · rw [endsOutside_cons, if_neg empty] at ends
          exact ⟨before, tail, empty, rfl, ends, rfl⟩

theorem mem_spacedWords_iff {text word : List Char} :
    word ∈ spacedWords text ↔ WordIn text word := by
  obtain ⟨first, pieces, split⟩ := List.exists_cons_of_ne_nil (splitBy_ne_nil isSpace text)
  obtain ⟨starts, others⟩ := splitBy_eq_cons split
  rw [spacedWords, split, List.mem_filter, List.mem_cons, others]
  constructor
  · rintro ⟨rfl | ⟨before, rest, -, whole, ends, rfl⟩, nonempty⟩
    · have run := longestRun_takeWhile (!isSpace ·) text
      rw [← starts] at run
      exact ⟨by simpa using nonempty, [], text, _, rfl, by simp [EndsOutside], run⟩
    · exact ⟨by simpa using nonempty, before, rest, _, whole, ends, longestRun_takeWhile _ rest⟩
  · rintro ⟨nonempty, before, rest, after, whole, ends, run⟩
    refine ⟨?_, by simpa using nonempty⟩
    by_cases empty : before = []
    · subst empty
      rw [whole, List.nil_append, run.takeWhile_eq] at starts
      exact .inl starts.symm
    · exact .inr ⟨before, rest, empty, whole, ends, run.takeWhile_eq.symm⟩

theorem contains_optionSet {body : List Char} {name : String} :
    (optionSet body).contains name = true ↔
      ∃ word, WordIn body word ∧ String.ofList (upper word) = name := by
  simp only [optionSet, NameSet.contains_ofList, List.mem_map, mem_spacedWords_iff]

theorem exists_wordIn {text : List Char} {c : Char} (member : c ∈ text)
    (solid : isSpace c = false) : ∃ word, WordIn text word ∧ c ∈ word := by
  obtain ⟨front, back, rfl⟩ := List.append_of_mem member
  obtain ⟨dropped, whole, inside, ends⟩ := dropWhile_reverse_iff.1
    (rfl : (front.reverse.dropWhile (!isSpace ·)).reverse = _)
  have run := longestRun_takeWhile (!isSpace ·) (dropped ++ c :: back)
  have within : c ∈ (dropped ++ c :: back).takeWhile (!isSpace ·) := by
    rw [List.takeWhile_append_of_pos inside, List.takeWhile_cons_of_pos (by simp [solid])]
    simp
  refine ⟨_, ⟨List.ne_nil_of_mem within, _, _, _, ?_, ends, run⟩, within⟩
  rw [← List.append_assoc, ← whole]

end Words

section Readings

theorem unitPieces_eq_modifyHead {inOptions : Bool} {c : Char}
    (joins : (!inOptions && isBlank c) = false) (rest : List Char) :
    unitPieces inOptions (c :: rest) =
      (unitPieces (if inOptions then c != ']' else opensOptions c rest) rest).modifyHead (c :: ·)
    := by
  obtain ⟨piece, pieces, whole, later⟩ := unitPieces_cons joins rest
  rw [whole, later, List.modifyHead_cons]

variable {inside : List Char} (closed : ']' ∉ inside) (back : List Char)

include closed

theorem unitPieces_options :
    unitPieces false ('%' :: '[' :: (inside ++ ']' :: back)) =
      (unitPieces false back).modifyHead fun piece => '%' :: '[' :: (inside ++ ']' :: piece) := by
  have within : unitPieces true (inside ++ ']' :: back) =
      (unitPieces false back).modifyHead (inside ++ ']' :: ·) := by
    induction inside with
    | nil => exact unitPieces_eq_modifyHead (by decide) back
    | cons c inside ih =>
      rw [List.mem_cons, not_or] at closed
      have goesOn : (c != ']') = true := bne_iff_ne.2 (Ne.symm closed.1)
      rw [List.cons_append, unitPieces_eq_modifyHead (by simp), if_pos rfl, goesOn, ih closed.2,
        List.modifyHead_modifyHead]
      rfl
  have opened : unitPieces true ('[' :: (inside ++ ']' :: back)) =
      (unitPieces true (inside ++ ']' :: back)).modifyHead ('[' :: ·) :=
    unitPieces_eq_modifyHead (by decide) _
  have signed : unitPieces false ('%' :: '[' :: (inside ++ ']' :: back)) =
      (unitPieces true ('[' :: (inside ++ ']' :: back))).modifyHead ('%' :: ·) :=
    unitPieces_eq_modifyHead (by decide) _
  rw [signed, opened, within, List.modifyHead_modifyHead, List.modifyHead_modifyHead]
  rfl

theorem placeholderKeys_options :
    placeholderKeys ('%' :: '[' :: (inside ++ ']' :: back)) = placeholderKeys back := by
  have within : placeholderKeysFrom true (inside ++ ']' :: back) =
      placeholderKeysFrom false back := by
    induction inside with
    | nil => rfl
    | cons c inside ih =>
      rw [List.mem_cons, not_or] at closed
      rw [List.cons_append, placeholderKeysFrom, if_pos rfl, bne_iff_ne.2 (Ne.symm closed.1)]
      exact ih closed.2
  exact within

end Readings

section Slots

/-- The unit starts with an option list: `inside` stands between `%[` and the first closing bracket,
and `tail` after this bracket. -/
structure OpensWithList (unit inside tail : List Char) : Prop where
  split : unit = '%' :: '[' :: (inside ++ ']' :: tail)
  closed : ']' ∉ inside

theorem optionBody?_eq_some_iff {unit body : List Char} :
    optionBody? unit = some body ↔ unit = '%' :: '[' :: (body ++ [']']) := by
  constructor
  · intro found
    unfold optionBody? at found
    split at found
    case h_1 rest =>
      obtain ⟨last, shorter⟩ := Option.ite_none_right_eq_some.1 found
      obtain ⟨inner, rfl⟩ := List.getLast?_eq_some_iff.1 last
      rw [List.dropLast_concat, Option.some.injEq] at shorter
      rw [shorter]
    case h_2 => simp at found
  · rintro rfl
    simp [optionBody?]

theorem exists_opensWithList {unit body : List Char} (found : optionBody? unit = some body) :
    ∃ inside tail, OpensWithList unit inside tail ∧
      (tail = [] ∧ body = inside ∨ tail ≠ [] ∧ ∃ more, body = inside ++ ']' :: more) := by
  obtain rfl := optionBody?_eq_some_iff.1 found
  by_cases early : ']' ∈ body
  · obtain ⟨inside, more, rfl, closed⟩ := List.eq_append_cons_of_mem early
    refine ⟨inside, more ++ [']'], ⟨by simp, closed⟩, .inr ⟨by simp, more, rfl⟩⟩
  · exact ⟨body, [], ⟨rfl, early⟩, .inl ⟨rfl, rfl⟩⟩

theorem Slot.ofUnit_eq_options {legend : Legend} {policy : OperandPolicy} {unit : List Char}
    {members : NameSet} (made : ofUnit legend policy unit = .options members) :
    ∃ body, optionBody? unit = some body ∧ members = optionSet body := by
  have ways := madeFrom_ofUnit legend policy unit
  rw [made] at ways
  rcases ways with ⟨found, same⟩ | ⟨-, same⟩ | @⟨key, -, same⟩ | ⟨-, -, same⟩ | ⟨-, same⟩
  · exact ⟨_, found, Slot.options.inj same⟩
  · simp at same
  · generalize legend.get? (String.ofList key) = entry at same
    rcases entry with _ | _ | _ <;> simp [ofKey] at same
  · simp at same
  · simp at same

def ListsWords (members : NameSet) (text : List Char) : Prop :=
  ∀ name, members.contains name = true ↔
    ∃ word, WordIn text word ∧ String.ofList (upper word) = name

theorem listsWords_optionSet (body : List Char) : ListsWords (optionSet body) body :=
  fun _ => contains_optionSet

/-- A bracket in the body is in one of its words, so the words before the bracket are others. -/
theorem not_listsWords_of_bracket {inside more : List Char} (closed : ']' ∉ inside) :
    ¬ ListsWords (optionSet (inside ++ ']' :: more)) inside := by
  intro lists
  obtain ⟨word, isWord, bracket⟩ :=
    @exists_wordIn (inside ++ ']' :: more) ']' (by simp) (by decide)
  obtain ⟨other, ⟨-, before, rest, after, whole, -, run⟩, same⟩ :=
    (lists _).1 (contains_optionSet.2 ⟨word, isWord, rfl⟩)
  rw [String.ofList_inj] at same
  have raised : ']' ∈ upper other := same ▸ List.mem_map_of_mem bracket
  obtain ⟨c, member, isBracket⟩ := List.mem_map.1 raised
  obtain rfl := (@toUpper_eq_iff c ']' (by decide)).1 isBracket
  apply closed
  rw [whole, run.split]
  simp [member]

end Slots

/-- The slot of an option list and the first bracket of the list. An option slot comes from a unit
that starts with `%[`; both readings of the rule leave the list at the first closing bracket and
go on after it as at the start of a text. The members are the words up to the bracket at the end of
the unit. They are the words up to the first bracket exactly if only commas follow this bracket in
the unit. -/
theorem option_slot_ends_at_last_bracket {legend : Legend} {policy : OperandPolicy} {text : String}
    {rule : Rule} {position : Nat} {members : NameSet}
    (compiled : Rule.compile legend policy text = .ok rule)
    (here : rule.slots[position]? = some (.options members)) :
    ∃ unit commas inside tail body,
      (operandUnits (units text.toList).tail)[position]? = some unit ∧
      unit ++ commas ∈ (units text.toList).tail ∧ AllIn (· == ',') commas ∧
      OpensWithList unit inside tail ∧
      (∀ back, unitPieces false (unit ++ back) = (unitPieces false (tail ++ back)).modifyHead
        fun piece => '%' :: '[' :: (inside ++ ']' :: piece)) ∧
      (∀ back, placeholderKeys (unit ++ back) = placeholderKeys (tail ++ back)) ∧
      unit = '%' :: '[' :: (body ++ [']']) ∧ ListsWords members body ∧
      (ListsWords members inside ↔ tail = []) := by
  obtain ⟨head, rest, split, rfl⟩ := compile_eq_ok_iff.1 compiled
  rw [List.getElem?_map, Option.map_eq_some_iff] at here
  obtain ⟨unit, listed, made⟩ := here
  obtain ⟨commas, member, separates⟩ :=
    exists_unit_of_mem_operandUnits (List.mem_of_getElem? listed)
  obtain ⟨body, found, rfl⟩ := Slot.ofUnit_eq_options made
  obtain ⟨inside, tail, ⟨opens, closed⟩, reach⟩ := exists_opensWithList found
  rw [split, List.tail_cons]
  refine ⟨unit, commas, inside, tail, body, listed, member, separates, ⟨opens, closed⟩, ?_, ?_,
    optionBody?_eq_some_iff.1 found, listsWords_optionSet body, ?_⟩
  · intro back
    rw [← unitPieces_options closed (tail ++ back), opens]
    simp
  · intro back
    rw [← placeholderKeys_options closed (tail ++ back), opens]
    simp
  · rcases reach with ⟨rfl, rfl⟩ | ⟨longer, more, rfl⟩
    · exact iff_of_true (listsWords_optionSet body) rfl
    · exact iff_of_false (not_listsWords_of_bracket closed) longer

theorem option_slot_ends_before_comma :
    let text := "BIT %[0 1], %r8"
    ∃ unit commas inside tail body,
      (operandUnits (units text.toList).tail)[0]? = some unit ∧
      unit ++ commas ∈ (units text.toList).tail ∧ AllIn (· == ',') commas ∧
      OpensWithList unit inside tail ∧
      (∀ back, unitPieces false (unit ++ back) = (unitPieces false (tail ++ back)).modifyHead
        fun piece => '%' :: '[' :: (inside ++ ']' :: piece)) ∧
      (∀ back, placeholderKeys (unit ++ back) = placeholderKeys (tail ++ back)) ∧
      unit = '%' :: '[' :: (body ++ [']']) ∧
      ListsWords (NameSet.ofList ["0", "1"]) body ∧
      (ListsWords (NameSet.ofList ["0", "1"]) inside ↔ tail = []) := by
  have compiled : Rule.compile Dict.empty ⟨true, true⟩ "BIT %[0 1], %r8" =
      .ok ⟨"BIT %[0 1], %r8", "BIT", [.options (NameSet.ofList ["0", "1"]), .literal "R8"]⟩ := by
    rfl
  exact option_slot_ends_at_last_bracket compiled
    (rfl : _ = some (Slot.options (NameSet.ofList ["0", "1"])))

/-- A second bracket at the end of the unit moves the end of the list: the first bracket and the
digit after it belong to a member. -/
theorem option_slot_passes_first_bracket :
    Rule.compile Dict.empty ⟨true, true⟩ "IM %[0 1]2]" =
        .ok ⟨"IM %[0 1]2]", "IM", [.options (NameSet.ofList ["0", "1]2"])]⟩ ∧
      OpensWithList "%[0 1]2]".toList "0 1".toList "2]".toList ∧
      ¬ ListsWords (NameSet.ofList ["0", "1]2"]) "0 1".toList := by
  refine ⟨rfl, ⟨by decide, by decide⟩, ?_⟩
  have set : NameSet.ofList ["0", "1]2"] = optionSet ("0 1".toList ++ ']' :: "2".toList) := by
    decide
  rw [set]
  exact not_listsWords_of_bracket (by decide)

end AsmLint
