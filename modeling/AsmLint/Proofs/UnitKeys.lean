import AsmLint.Proofs.RuleInstances

/-! The keys of a rule, unit by unit. The keys that are found in a rule are those of its first word
and of its operand units, in the order of the text. The key at the first percent sign of a unit is
what its slot is read for, with the legend entry of the key; keys that follow in the same unit stay
in the fixed text after the gap. -/

namespace AsmLint

section Scan

def keyAfter (inOptions : Bool) (c : Char) (rest : List Char) : List (List Char) :=
  if !inOptions && c == '%' && rest.head?.any isWordChar then [rest.takeWhile isWordChar] else []

theorem opensOptions_iff {c : Char} {rest : List Char} :
    opensOptions c rest = true ↔ c = '%' ∧ ∃ tail, rest = '[' :: tail := by
  rw [opensOptions, Bool.and_eq_true, beq_iff_eq, beq_iff_eq, List.head?_eq_some_iff]

theorem placeholderKeysFrom_cons (inOptions : Bool) (c : Char) (rest : List Char) :
    placeholderKeysFrom inOptions (c :: rest) = keyAfter inOptions c rest ++
      placeholderKeysFrom (if inOptions then c != ']' else opensOptions c rest) rest := by
  cases inOptions with
  | true => rfl
  | false =>
    rw [placeholderKeysFrom, keyAfter]
    cases opens : opensOptions c rest with
    | true =>
      obtain ⟨-, tail, rfl⟩ := opensOptions_iff.1 opens
      simp [isWordChar]
    | false =>
      by_cases starts : (c == '%' && rest.head?.any isWordChar) = true
      · simp [starts]
      · simp [starts]

/-- The text does not go on with what stands before it: no word and no option list spans both. -/
def Separate (text : List Char) : Prop := StartsOutside (fun c => c == '[' || isWordChar c) text

section

variable {back : List Char} (separate : Separate back)

include separate

theorem takeWhile_isWordChar_append (text : List Char) :
    (text ++ back).takeWhile isWordChar = text.takeWhile isWordChar := by
  have run := longestRun_takeWhile isWordChar text
  cases back with
  | nil => rw [List.append_nil]
  | cons c back =>
    have outside : isWordChar c = false :=
      (Bool.or_eq_false_iff.1 (startsOutside_cons.1 separate)).2
    exact (run.extend outside back).takeWhile_eq

theorem opensOptions_append (c : Char) (text : List Char) :
    opensOptions c (text ++ back) = opensOptions c text := by
  cases text with
  | cons d text => rfl
  | nil =>
    have none : ¬ opensOptions c back = true := by
      intro opens
      obtain ⟨-, tail, rfl⟩ := opensOptions_iff.1 opens
      simp [Separate] at separate
    rw [List.nil_append, Bool.eq_false_iff.2 none]
    simp [opensOptions]

theorem keyAfter_append (inOptions : Bool) (c : Char) (text : List Char) :
    keyAfter inOptions c (text ++ back) = keyAfter inOptions c text := by
  have starts : (text ++ back).head?.any isWordChar = text.head?.any isWordChar := by
    cases text with
    | cons d text => rfl
    | nil => exact startsOutside_iff_any.1 (separate.mono fun c word => by simp [word])
  rw [keyAfter, keyAfter, takeWhile_isWordChar_append separate, starts]

end

theorem exists_append_of_unitPieces {inOptions : Bool} {text first : List Char}
    {pieces : List (List Char)} (split : unitPieces inOptions text = first :: pieces) :
    ∃ back, text = first ++ back ∧ Separate back := by
  induction text generalizing inOptions first pieces with
  | nil =>
    obtain ⟨rfl, -⟩ := List.cons.inj split
    exact ⟨[], rfl, startsOutside_nil _⟩
  | cons c rest ih =>
    by_cases separates : (!inOptions && isBlank c) = true
    · rw [unitPieces, if_pos separates] at split
      obtain ⟨rfl, -⟩ := List.cons.inj split
      refine ⟨c :: rest, rfl, startsOutside_cons.2 ?_⟩
      exact @outside_of_isBlank (fun c => c == '[' || isWordChar c) c (by decide)
        (Bool.and_eq_true_iff.1 separates).2
    · obtain ⟨piece, others, whole, later⟩ := unitPieces_cons (Bool.eq_false_iff.2 separates) rest
      rw [whole] at split
      obtain ⟨rfl, -⟩ := List.cons.inj split
      obtain ⟨back, rfl, separate⟩ := ih later
      exact ⟨back, rfl, separate⟩

theorem placeholderKeysFrom_eq_flatMap {inOptions : Bool} {text first : List Char}
    {pieces : List (List Char)} (split : unitPieces inOptions text = first :: pieces) :
    placeholderKeysFrom inOptions text =
      placeholderKeysFrom inOptions first ++ pieces.flatMap placeholderKeys := by
  induction text generalizing inOptions first pieces with
  | nil =>
    obtain ⟨rfl, rfl⟩ := List.cons.inj split
    rfl
  | cons c rest ih =>
    by_cases separates : (!inOptions && isBlank c) = true
    · obtain ⟨outside, blank⟩ := Bool.and_eq_true_iff.1 separates
      obtain rfl : inOptions = false := by simpa using outside
      have notSign : (c == '%') = false := @outside_of_isBlank (· == '%') c (by decide) blank
      rw [unitPieces, if_pos separates] at split
      obtain ⟨rfl, rfl⟩ := List.cons.inj split
      obtain ⟨piece, others, later⟩ := List.exists_cons_of_ne_nil (unitPieces_ne_nil false rest)
      rw [placeholderKeysFrom_cons, later]
      simp [keyAfter, opensOptions, notSign, ih later, placeholderKeys, placeholderKeysFrom]
    · obtain ⟨piece, others, whole, later⟩ := unitPieces_cons (Bool.eq_false_iff.2 separates) rest
      rw [whole] at split
      obtain ⟨rfl, rfl⟩ := List.cons.inj split
      have keys := ih later
      obtain ⟨back, rfl, separate⟩ := exists_append_of_unitPieces later
      rw [placeholderKeysFrom_cons, placeholderKeysFrom_cons, keys, keyAfter_append separate,
        opensOptions_append separate, List.append_assoc]

theorem placeholderKeysFrom_of_no_sign {text : List Char} (noSign : AllIn (· != '%') text)
    (inOptions : Bool) : placeholderKeysFrom inOptions text = [] := by
  induction text generalizing inOptions with
  | nil => rfl
  | cons c rest ih =>
    obtain ⟨other, later⟩ := allIn_cons.1 noSign
    have none : keyAfter inOptions c rest = [] := by
      simp [keyAfter, show c ≠ '%' by simpa using other]
    rw [placeholderKeysFrom_cons, none, ih later, List.append_nil]

theorem placeholderKeys_append_of_no_sign {front : List Char} (noSign : AllIn (· != '%') front)
    (back : List Char) : placeholderKeys (front ++ back) = placeholderKeys back := by
  induction front with
  | nil => rfl
  | cons c front ih =>
    obtain ⟨other, later⟩ := allIn_cons.1 noSign
    have notSign : c ≠ '%' := by simpa using other
    rw [← ih later, List.cons_append, placeholderKeys, placeholderKeysFrom_cons,
      opensOptions_of_ne notSign]
    simp [keyAfter, notSign, placeholderKeys]

theorem placeholderKeysFrom_append_commas {commas : List Char} (separates : AllIn (· == ',') commas)
    (inOptions : Bool) (unit : List Char) :
    placeholderKeysFrom inOptions (unit ++ commas) = placeholderKeysFrom inOptions unit := by
  have separate : Separate commas := by
    cases commas with
    | nil => exact startsOutside_nil _
    | cons c commas =>
      obtain rfl : c = ',' := by simpa using (allIn_cons.1 separates).1
      exact startsOutside_cons.2 (by decide)
  have noSign : AllIn (· != '%') commas := by
    intro c member
    obtain rfl : c = ',' := by simpa using separates c member
    decide
  induction unit generalizing inOptions with
  | nil => exact placeholderKeysFrom_of_no_sign noSign inOptions
  | cons c unit ih =>
    rw [List.cons_append, placeholderKeysFrom_cons, placeholderKeysFrom_cons,
      keyAfter_append separate, opensOptions_append separate, ih]

end Scan

section Units

theorem placeholderKeys_eq_flatMap_units (text : List Char) :
    placeholderKeys text = (units text).flatMap placeholderKeys := by
  obtain ⟨first, pieces, split⟩ := List.exists_cons_of_ne_nil (unitPieces_ne_nil false text)
  have keys : placeholderKeys text = (unitPieces false text).flatMap placeholderKeys := by
    rw [split, placeholderKeys, placeholderKeysFrom_eq_flatMap split, List.flatMap_cons]
    rfl
  rw [keys, units]
  clear keys split
  induction unitPieces false text with
  | nil => rfl
  | cons piece others ih =>
    cases piece with
    | nil => exact ih
    | cons c piece =>
      rw [List.flatMap_cons, ih, List.filter_cons_of_pos (by rfl), List.flatMap_cons]

theorem flatMap_operandUnits (rest : List (List Char)) :
    (operandUnits rest).flatMap placeholderKeys = rest.flatMap placeholderKeys := by
  induction rest with
  | nil => rfl
  | cons unit rest ih =>
    obtain ⟨commas, whole, separates, -⟩ := dropWhile_reverse_iff.1
      (rfl : (unit.reverse.dropWhile (· == ',')).reverse = dropTrailingCommas unit)
    have kept : placeholderKeys unit = placeholderKeys (dropTrailingCommas unit) := by
      nth_rewrite 1 [whole]
      exact placeholderKeysFrom_append_commas separates false _
    rw [List.flatMap_cons, ← ih, kept, operandUnits, List.map_cons]
    by_cases separator : isSeparatorUnit (dropTrailingCommas unit) = true
    · have none : placeholderKeys (dropTrailingCommas unit) = [] := by
        refine placeholderKeysFrom_of_no_sign (fun c member => ?_) false
        have listed := List.all_eq_true.1 separator c member
        rw [bne_iff_ne]
        rintro rfl
        revert listed
        decide
      rw [List.filter_cons_of_neg (by simp [separator]), none]
      rfl
    · rw [List.filter_cons_of_pos (by simp [separator]), List.flatMap_cons]
      rfl

theorem KeyedUnit.Cuts.placeholderKeys_eq {before key after unit : List Char}
    (cuts : (⟨before, key, after⟩ : KeyedUnit).Cuts unit) :
    placeholderKeys unit = key :: placeholderKeys after := by
  obtain ⟨sign, run, nonempty⟩ := cuts
  have noSign : AllIn (· != '%') key := by
    intro c member
    rw [bne_iff_ne]
    rintro rfl
    have word := run.inside _ member
    revert word
    decide
  have starts : (key ++ after).head?.any isWordChar = true := by
    rw [← takeWhile_ne_nil_iff, run.takeWhile_eq]
    exact nonempty
  have noList : ¬ opensOptions '%' (key ++ after) = true := by
    intro opens
    obtain ⟨-, tail, bracket⟩ := opensOptions_iff.1 opens
    rw [bracket] at starts
    simp [isWordChar] at starts
  rw [sign.split, placeholderKeys_append_of_no_sign sign.inside, placeholderKeys,
    placeholderKeysFrom_cons, if_neg (by decide), Bool.eq_false_iff.2 noList, keyAfter, starts,
    run.takeWhile_eq]
  exact congrArg (key :: ·) (placeholderKeys_append_of_no_sign noSign after)

inductive Slot.Constrains (before key after : List Char) : LegendEntry → Slot → Prop where
  | tokens {spellings} : before = [] → after = [] → Constrains before key after
      (.tokens spellings) (.registers (String.ofList key) (upperSet spellings))
  | kinds {kinds} : before = [] → after = [] → Constrains before key after
      (.categories kinds) (.any (String.ofList key) (LegendEntry.freeForm (.categories kinds)))
  | tokensWithin {template spellings} : before ≠ [] ∨ after ≠ [] → Constrains before key after
      (.tokens spellings) (.pattern template before after (.tokens (upperSet spellings)))
  | kindsWithin {template kinds} : before ≠ [] ∨ after ≠ [] → Constrains before key after
      (.categories kinds) (.pattern template before after .unrestricted)

theorem Slot.ofUnit_constrains {legend : Legend} {policy : OperandPolicy} {entry : LegendEntry}
    {before key after unit : List Char} (composite : policy.compositePatterns = true)
    (cuts : (⟨before, key, after⟩ : KeyedUnit).Cuts unit)
    (declared : legend.get? (String.ofList key) = some entry) :
    Constrains before key after entry (ofUnit legend policy unit) := by
  by_cases bare : before = [] ∧ after = []
  · obtain ⟨rfl, rfl⟩ := bare
    rw [ofUnit_bare cuts, declared]
    cases entry with
    | tokens spellings => exact .tokens rfl rfl
    | categories kinds => exact .kinds rfl rfl
  · have around : before ≠ [] ∨ after ≠ [] := Decidable.not_and_iff_not_or_not.1 bare
    rw [ofUnit_composite cuts around composite, declared]
    cases entry with
    | tokens spellings => exact .tokensWithin around
    | categories kinds => exact .kindsWithin around

end Units

/-- The keys of a rule and its slots, for a table that declares every key. The keys after the first
word are those of the operand units. The key at the first percent sign of an operand unit is the key
of the slot of this unit, which is held to the legend entry of the key. The further keys of the unit
are those of the fixed text after the first. Nothing is said of a unit whose first percent sign
starts no key, such as `%%r` or `%[0 1]%r`. -/
theorem first_key_of_unit_constrains {table : RuleTable} {policy : OperandPolicy}
    {mnemonic text : String} {rules : List String} {rule : Rule} (declared : table.undeclared = [])
    (composite : policy.compositePatterns = true) (entry : (mnemonic, rules) ∈ table.entries)
    (listed : text ∈ rules) (compiled : Rule.compile table.legend policy text = .ok rule) :
    ∃ head rest, units text.toList = head :: rest ∧
      placeholderKeys text.toList =
        placeholderKeys head ++ (operandUnits rest).flatMap placeholderKeys ∧
      rule.slots.length = (operandUnits rest).length ∧
      ∀ (position : Nat) unit before key after, (operandUnits rest)[position]? = some unit →
        (⟨before, key, after⟩ : KeyedUnit).Cuts unit →
        placeholderKeys unit = key :: placeholderKeys after ∧ '%' ∉ before ∧
        ∃ slot entry, rule.slots[position]? = some slot ∧
          table.legend.get? (String.ofList key) = some entry ∧
          slot.Constrains before key after entry := by
  obtain ⟨head, rest, split, rfl⟩ := compile_eq_ok_iff.1 compiled
  have keys : placeholderKeys text.toList =
      placeholderKeys head ++ (operandUnits rest).flatMap placeholderKeys := by
    rw [placeholderKeys_eq_flatMap_units, split, List.flatMap_cons, flatMap_operandUnits]
  refine ⟨head, rest, split, keys, List.length_map _, ?_⟩
  intro position unit before key after here cuts
  have first := cuts.placeholderKeys_eq
  have found : (table.legend.get? (String.ofList key)).isSome = true := by
    rw [Option.isSome_iff_ne_none]
    intro missing
    have undeclared : String.ofList key ∈ RuleTable.undeclaredIn table.legend text := by
      refine mem_undeclaredIn_iff.2 ⟨?_, missing⟩
      rw [String.toList_ofList, keys, List.mem_append, List.mem_flatMap]
      exact .inr ⟨unit, List.mem_of_getElem? here, by rw [first]; exact List.mem_cons_self⟩
    have reported := mem_undeclared entry listed undeclared
    simp [declared] at reported
  obtain ⟨entry, present⟩ := Option.isSome_iff_exists.1 found
  refine ⟨first, ?_, _, entry, ?_, present, Slot.ofUnit_constrains composite cuts present⟩
  · intro member
    simpa using cuts.sign.inside _ member
  · rw [List.getElem?_map, here, Option.map_some]

theorem first_key_within_parentheses :
    let table : RuleTable := ⟨"1.0.0", "t",
      Dict.ofList [("r", .tokens ["A"]), ("n", .categories [.byte])],
      Dict.ofList [("LD", ["LD %r, (%n+1)"])], Dict.empty, []⟩
    ∃ slot entry, table.undeclared = [] ∧ table.legend.get? "n" = some entry ∧
      Rule.compile table.legend ⟨true, true⟩ "LD %r, (%n+1)" =
        .ok ⟨"LD %r, (%n+1)", "LD", [.registers "r" (upperSet ["A"]), slot]⟩ ∧
      slot.Constrains "(".toList "n".toList "+1)".toList entry := by
  intro table
  have compiled : Rule.compile table.legend ⟨true, true⟩ "LD %r, (%n+1)" =
      .ok ⟨"LD %r, (%n+1)", "LD", [.registers "r" (upperSet ["A"]),
        .pattern "(%n+1)" "(".toList "+1)".toList .unrestricted]⟩ := by rfl
  obtain ⟨head, rest, split, -, -, slots⟩ := first_key_of_unit_constrains
    (by decide : table.undeclared = []) rfl (by decide : ("LD", ["LD %r, (%n+1)"]) ∈ table.entries)
    (List.mem_singleton_self _) compiled
  have given : units "LD %r, (%n+1)".toList = ["LD".toList, "%r,".toList, "(%n+1)".toList] := by
    decide
  rw [given] at split
  obtain ⟨rfl, rfl⟩ := List.cons.inj split
  have cuts : (⟨"(".toList, "n".toList, "+1)".toList⟩ : KeyedUnit).Cuts "(%n+1)".toList :=
    keyedUnit_of?_iff.1 (by decide)
  obtain ⟨-, -, slot, entry, here, present, holds⟩ := slots 1 _ _ _ _ (by decide) cuts
  obtain rfl := Option.some.inj here
  exact ⟨_, entry, by decide, present, compiled, holds⟩

/-- A second key in one unit is fixed text: both keys are declared and found, but only the first is
the key of a slot. -/
theorem second_key_of_unit_is_fixed_text :
    let table : RuleTable := ⟨"1.0.0", "t",
      Dict.ofList [("r", .tokens ["A"]), ("n", .categories [.byte])],
      Dict.ofList [("LD", ["LD (%r+%n)"])], Dict.empty, []⟩
    table.undeclared = [] ∧
      placeholderKeys "LD (%r+%n)".toList = ["r".toList, "n".toList] ∧
      Rule.compile table.legend ⟨true, true⟩ "LD (%r+%n)" = .ok ⟨"LD (%r+%n)", "LD",
        [.pattern "(%r+%n)" "(".toList "+%n)".toList (.tokens (upperSet ["A"]))]⟩ :=
  ⟨by decide, by decide, rfl⟩

end AsmLint
