import AsmLint.Proofs.LongestRun
import AsmLint.Proofs.Vocabulary

/-! Keys that stand for themselves. A rule is read twice: once unit by unit, when it is compiled,
and once from end to end, when a table is searched for keys that its legend lacks. The key of a unit
is among the keys of the whole rule, so each key that compiles to a plain word is found by the
search. -/

namespace AsmLint

/-- The unit reads `before`, a percent sign, the key and `after`, and it has no percent sign before
this one. -/
structure KeyedUnit.Cuts (keyed : KeyedUnit) (unit : List Char) : Prop where
  sign : LongestRun (· != '%') unit keyed.before ('%' :: (keyed.key ++ keyed.after))
  run : LongestRun isWordChar (keyed.key ++ keyed.after) keyed.key keyed.after
  nonempty : keyed.key ≠ []

theorem takeWhile_ne_nil_iff {inClass : Char → Bool} {text : List Char} :
    text.takeWhile inClass ≠ [] ↔ text.head?.any inClass = true := by
  cases text with
  | nil => simp
  | cons c rest => by_cases inside : inClass c = true <;> simp [inside]

theorem keyedUnit_of?_iff {unit : List Char} {keyed : KeyedUnit} :
    KeyedUnit.of? unit = some keyed ↔ keyed.Cuts unit := by
  obtain ⟨before, key, after⟩ := keyed
  constructor
  · intro found
    have sign := longestRun_takeWhile (· != '%') unit
    rw [KeyedUnit.of?] at found
    split at found
    case h_1 => simp at found
    case h_2 c rest remains =>
      rw [remains] at sign
      obtain rfl : c = '%' := by simpa using sign.stops
      simp only [Option.ite_none_right_eq_some, Option.some.injEq, KeyedUnit.mk.injEq] at found
      obtain ⟨starts, rfl, rfl, rfl⟩ := found
      have run := longestRun_takeWhile isWordChar rest
      refine ⟨?_, ?_, takeWhile_ne_nil_iff.2 starts⟩
      · rw [← run.split]
        exact sign
      · rw [← run.split]
        exact run
  · rintro ⟨sign, run, nonempty⟩
    have starts : (key ++ after).head?.any isWordChar = true := by
      rw [← takeWhile_ne_nil_iff, run.takeWhile_eq]
      exact nonempty
    rw [KeyedUnit.of?, sign.dropWhile_eq]
    simp only [sign.takeWhile_eq, run.takeWhile_eq, run.dropWhile_eq, starts, if_true]

def HasKey (unit key : List Char) : Prop :=
  ∃ before after, (⟨before, key, after⟩ : KeyedUnit).Cuts unit

theorem hasKey_iff {unit key : List Char} :
    HasKey unit key ↔ (KeyedUnit.of? unit).map KeyedUnit.key = some key := by
  simp only [HasKey, ← keyedUnit_of?_iff, Option.map_eq_some_iff]
  constructor
  · rintro ⟨before, after, found⟩
    exact ⟨_, found, rfl⟩
  · rintro ⟨⟨before, _, after⟩, found, rfl⟩
    exact ⟨before, after, found⟩

@[simp] theorem not_hasKey_nil (key : List Char) : ¬ HasKey [] key := by
  simp [hasKey_iff, KeyedUnit.of?]

theorem hasKey_percent_iff {rest key : List Char} :
    HasKey ('%' :: rest) key ↔
      rest.head?.any isWordChar = true ∧ rest.takeWhile isWordChar = key := by
  rw [hasKey_iff, KeyedUnit.of?]
  by_cases starts : rest.head?.any isWordChar = true <;> simp [starts]

theorem hasKey_cons_iff {c : Char} (other : c ≠ '%') {rest key : List Char} :
    HasKey (c :: rest) key ↔ HasKey rest key := by
  have passed : (c != '%') = true := by simpa using other
  rw [hasKey_iff, hasKey_iff, KeyedUnit.of?, KeyedUnit.of?, List.dropWhile_cons, if_pos passed]
  cases rest.dropWhile (· != '%') with
  | nil => rfl
  | cons d tail => by_cases starts : tail.head?.any isWordChar = true <;> simp [starts]

theorem HasKey.append_commas {unit key commas : List Char} (keyed : HasKey unit key)
    (separates : AllIn (· == ',') commas) : HasKey (unit ++ commas) key := by
  obtain ⟨before, after, sign, run, nonempty⟩ := keyed
  cases commas with
  | nil => exact ⟨before, after, by simpa using sign, run, nonempty⟩
  | cons c commas =>
    obtain rfl : c = ',' := by simpa using (allIn_cons.1 separates).1
    refine ⟨before, after ++ ',' :: commas, ?_, ?_, nonempty⟩
    · exact ⟨by simp [sign.split], sign.inside, startsOutside_cons.2 (by decide)⟩
    · rw [← List.append_assoc]
      exact run.extend (by decide) commas

theorem unitPieces_ne_nil (inOptions : Bool) (text : List Char) :
    unitPieces inOptions text ≠ [] := by
  cases text with
  | nil => simp [unitPieces]
  | cons c rest =>
    simp only [unitPieces]
    split
    · simp
    · split <;> simp

theorem unitPieces_cons {inOptions : Bool} {c : Char} (joins : (!inOptions && isBlank c) = false)
    (rest : List Char) :
    ∃ piece pieces, unitPieces inOptions (c :: rest) = (c :: piece) :: pieces ∧
      unitPieces (if inOptions then c != ']' else opensOptions c rest) rest = piece :: pieces := by
  obtain ⟨piece, pieces, found⟩ := List.exists_cons_of_ne_nil
    (unitPieces_ne_nil (if inOptions then c != ']' else opensOptions c rest) rest)
  refine ⟨piece, pieces, ?_, found⟩
  rw [unitPieces, if_neg (by simp [joins])]
  simp only [found]

theorem outside_of_isBlank {inClass : Char → Bool} {c : Char}
    (refused : [' ', '\t', '\n', '\x0c', '\r'].any inClass = false) (blank : isBlank c = true) :
    inClass c = false := by
  have listed : c ∈ [' ', '\t', '\n', '\x0c', '\r'] := by
    simpa [isBlank, or_assoc] using blank
  simpa using List.any_eq_false.1 refused c listed

theorem opensOptions_of_ne {c : Char} (other : c ≠ '%') (rest : List Char) :
    opensOptions c rest = false := by
  simp [opensOptions, other]

theorem takeWhile_isWordChar_piece {text piece : List Char} {pieces : List (List Char)}
    (split : unitPieces false text = piece :: pieces) :
    piece.takeWhile isWordChar = text.takeWhile isWordChar := by
  induction text generalizing piece pieces with
  | nil =>
    obtain ⟨rfl, -⟩ := List.cons.inj split
    rfl
  | cons c rest ih =>
    by_cases blank : isBlank c = true
    · rw [unitPieces, if_pos (by simpa using blank)] at split
      obtain ⟨rfl, -⟩ := List.cons.inj split
      simp [@outside_of_isBlank isWordChar c (by decide) blank]
    · obtain ⟨tail, others, whole, later⟩ := @unitPieces_cons false c (by simpa using blank) rest
      rw [whole] at split
      obtain ⟨rfl, -⟩ := List.cons.inj split
      by_cases wordChar : isWordChar c = true
      · have notSign : c ≠ '%' := by
          rintro rfl
          revert wordChar
          decide
        rw [if_neg (by decide), opensOptions_of_ne notSign] at later
        rw [List.takeWhile_cons_of_pos wordChar, List.takeWhile_cons_of_pos wordChar, ih later]
      · rw [List.takeWhile_cons_of_neg wordChar, List.takeWhile_cons_of_neg wordChar]

theorem placeholderKeysFrom_subset (inOptions : Bool) (c : Char) (rest : List Char) :
    placeholderKeysFrom (if inOptions then c != ']' else opensOptions c rest) rest ⊆
      placeholderKeysFrom inOptions (c :: rest) := by
  intro key member
  rw [placeholderKeysFrom]
  cases inOptions with
  | true => exact member
  | false =>
    cases opens : opensOptions c rest with
    | true => simpa [opens] using member
    | false =>
      have later : key ∈ placeholderKeysFrom false rest := by simpa [opens] using member
      by_cases starts : (c == '%' && rest.head?.any isWordChar) = true
      · simp [starts, later]
      · simp [starts, later]

theorem mem_placeholderKeysFrom_percent {rest piece key : List Char} {pieces : List (List Char)}
    (split : unitPieces (opensOptions '%' rest) rest = piece :: pieces)
    (keyed : HasKey ('%' :: piece) key) : key ∈ placeholderKeysFrom false ('%' :: rest) := by
  obtain ⟨starts, rfl⟩ := hasKey_percent_iff.1 keyed
  cases opens : opensOptions '%' rest with
  | true =>
    obtain ⟨tail, rfl⟩ : ∃ tail, rest = '[' :: tail :=
      List.head?_eq_some_iff.1 (by simpa [opensOptions] using opens)
    obtain ⟨inner, others, whole, -⟩ := @unitPieces_cons true '[' (by decide) tail
    rw [opens, whole] at split
    obtain ⟨rfl, -⟩ := List.cons.inj split
    simp [isWordChar] at starts
  | false =>
    rw [opens] at split
    have sameWord := takeWhile_isWordChar_piece split
    have starts : rest.head?.any isWordChar = true := by
      rw [← takeWhile_ne_nil_iff, ← sameWord]
      exact takeWhile_ne_nil_iff.2 starts
    simp [placeholderKeysFrom, opens, starts, sameWord]

/-- Both readings pass over the same option lists. The first piece counts only where the text does
not start inside a list: what is left of a list there is no part of a unit that can have a key. -/
theorem mem_placeholderKeysFrom {inOptions : Bool} {text first key : List Char}
    {pieces : List (List Char)} (split : unitPieces inOptions text = first :: pieces) :
    (inOptions = false → HasKey first key → key ∈ placeholderKeysFrom inOptions text) ∧
      ∀ piece ∈ pieces, HasKey piece key → key ∈ placeholderKeysFrom inOptions text := by
  induction text generalizing inOptions first pieces with
  | nil =>
    obtain ⟨rfl, rfl⟩ := List.cons.inj split
    simp
  | cons c rest ih =>
    have found := @placeholderKeysFrom_subset inOptions c rest
    by_cases separates : (!inOptions && isBlank c) = true
    · have outside : inOptions = false := by simpa using (Bool.and_eq_true_iff.1 separates).1
      have blank : isBlank c = true := (Bool.and_eq_true_iff.1 separates).2
      have notSign : c ≠ '%' := by
        rintro rfl
        revert blank
        decide
      subst outside
      rw [unitPieces, if_pos separates] at split
      obtain ⟨rfl, rest⟩ := List.cons.inj split
      rw [if_neg (by decide), opensOptions_of_ne notSign] at found
      obtain ⟨piece, others, later⟩ := List.exists_cons_of_ne_nil (unitPieces_ne_nil false _)
      have ⟨inFirst, inOthers⟩ := ih later
      refine ⟨fun _ keyed => absurd keyed (not_hasKey_nil key), fun unit member keyed => found ?_⟩
      rw [← rest, later] at member
      rcases List.mem_cons.1 member with rfl | member
      · exact inFirst rfl keyed
      · exact inOthers unit member keyed
    · obtain ⟨piece, others, whole, later⟩ := unitPieces_cons (by simpa using separates) rest
      rw [whole] at split
      obtain ⟨rfl, rfl⟩ := List.cons.inj split
      refine ⟨?_, fun unit member keyed => found ((ih later).2 unit member keyed)⟩
      rintro rfl keyed
      by_cases sign : c = '%'
      · subst sign
        exact mem_placeholderKeysFrom_percent later keyed
      · have within : (if false then c != ']' else opensOptions c rest) = false :=
          opensOptions_of_ne sign rest
        exact found ((ih later).1 within ((hasKey_cons_iff sign).1 keyed))

theorem mem_placeholderKeys_of_mem_units {text unit key : List Char} (member : unit ∈ units text)
    (keyed : HasKey unit key) : key ∈ placeholderKeys text := by
  obtain ⟨piece, pieces, split⟩ := List.exists_cons_of_ne_nil (unitPieces_ne_nil false text)
  have ⟨inFirst, inOthers⟩ := @mem_placeholderKeysFrom false text piece key pieces split
  have member := (List.mem_filter.1 member).1
  rw [split] at member
  rcases List.mem_cons.1 member with rfl | member
  · exact inFirst rfl keyed
  · exact inOthers unit member keyed

theorem exists_unit_of_mem_operandUnits {rest : List (List Char)} {unit : List Char}
    (member : unit ∈ operandUnits rest) :
    ∃ commas, unit ++ commas ∈ rest ∧ AllIn (· == ',') commas := by
  obtain ⟨whole, listed, trimmed⟩ := List.mem_map.1 (List.mem_filter.1 member).1
  obtain ⟨commas, rfl, separates, -⟩ := dropWhile_reverse_iff.1 trimmed
  exact ⟨commas, listed, separates⟩

inductive Slot.MadeFrom (legend : Legend) (policy : OperandPolicy) (unit : List Char)
    (slot : Slot) : Prop where
  | options {body} : optionBody? unit = some body → slot = .options (optionSet body) →
      MadeFrom legend policy unit slot
  | word : KeyedUnit.of? unit = none → slot = .literal (String.ofList (upper unit)) →
      MadeFrom legend policy unit slot
  | key {key} : (⟨[], key, []⟩ : KeyedUnit).Cuts unit →
      slot = .ofKey key (legend.get? (String.ofList key)) → MadeFrom legend policy unit slot
  | pattern {before key after} : (⟨before, key, after⟩ : KeyedUnit).Cuts unit →
      policy.compositePatterns = true →
      slot = .pattern (String.ofList unit) before after
        (.ofEntry key (legend.get? (String.ofList key))) → MadeFrom legend policy unit slot
  | anyText : policy.compositePatterns = false → slot = .any (String.ofList unit) false →
      MadeFrom legend policy unit slot

theorem Slot.madeFrom_ofUnit (legend : Legend) (policy : OperandPolicy) (unit : List Char) :
    MadeFrom legend policy unit (ofUnit legend policy unit) := by
  rw [ofUnit]
  split
  case h_1 body found => exact .options found rfl
  case h_2 =>
    split
    case h_1 noKey => exact .word noKey rfl
    case h_2 before key after found =>
      have cuts := keyedUnit_of?_iff.1 found
      dsimp only
      split
      case isTrue bare =>
        obtain ⟨rfl, rfl⟩ : before = [] ∧ after = [] := by simpa using bare
        exact .key cuts rfl
      case isFalse =>
        split
        case isTrue composite => exact .pattern cuts composite rfl
        case isFalse loose => exact .anyText (by simpa using loose) rfl

/-- The slot takes the key of its unit as a word like any other, alone or in the gap of a
pattern. -/
inductive Slot.TakesAsWord (unit key : List Char) : Slot → Prop where
  | alone : unit = '%' :: key → TakesAsWord unit key (.literal (String.ofList (upper key)))
  | gap {template before after} : unit = before ++ '%' :: (key ++ after) →
      TakesAsWord unit key (.pattern template before after (.word (String.ofList (upper key))))

theorem Slot.ofKey_eq_literal_iff {key : List Char} {entry : Option LegendEntry} {word : String} :
    ofKey key entry = .literal word ↔ entry = none ∧ String.ofList (upper key) = word := by
  rcases entry with _ | _ | _ <;> simp [ofKey]

theorem Slot.ofKey_ne_pattern {key before after : List Char} {entry : Option LegendEntry}
    {template : String} {filling : Filling} :
    ofKey key entry ≠ .pattern template before after filling := by
  rcases entry with _ | _ | _ <;> simp [ofKey]

theorem Filling.ofEntry_eq_word_iff {key : List Char} {entry : Option LegendEntry} {word : String} :
    ofEntry key entry = .word word ↔ entry = none ∧ String.ofList (upper key) = word := by
  rcases entry with _ | _ | _ <;> simp [ofEntry]

theorem Slot.TakesAsWord.undeclared {legend : Legend} {policy : OperandPolicy}
    {unit key : List Char} (taken : (ofUnit legend policy unit).TakesAsWord unit key) :
    HasKey unit key ∧ legend.get? (String.ofList key) = none := by
  have made := madeFrom_ofUnit legend policy unit
  generalize ofUnit legend policy unit = slot at made taken
  cases taken with
  | alone bare =>
    rcases made with ⟨-, same⟩ | ⟨-, same⟩ | ⟨cuts, same⟩ | ⟨-, -, same⟩ | ⟨-, same⟩
    · simp at same
    · -- A unit with no key keeps its percent sign.
      have length := congrArg List.length (String.ofList_inj.1 (Slot.literal.inj same))
      simp [length_upper, bare] at length
    · obtain ⟨missing, -⟩ := Slot.ofKey_eq_literal_iff.1 same.symm
      obtain rfl := by simpa [bare] using cuts.sign.split
      exact ⟨⟨[], [], cuts⟩, missing⟩
    · simp at same
    · simp at same
  | gap around =>
    rcases made with ⟨-, same⟩ | ⟨-, same⟩ | ⟨-, same⟩ | ⟨cuts, -, same⟩ | ⟨-, same⟩
    · simp at same
    · simp at same
    · exact absurd same.symm ofKey_ne_pattern
    · obtain ⟨-, rfl, rfl, filling⟩ := Slot.pattern.inj same
      obtain ⟨missing, -⟩ := Filling.ofEntry_eq_word_iff.1 filling.symm
      obtain rfl := by simpa [around] using cuts.sign.split
      exact ⟨⟨_, _, cuts⟩, missing⟩
    · simp at same

def Rule.TakesAsWord (rule : Rule) (key : List Char) : Prop :=
  ∃ (position : Nat) (unit : List Char) (slot : Slot),
    (operandUnits (units rule.text.toList).tail)[position]? = some unit ∧
      rule.slots[position]? = some slot ∧ slot.TakesAsWord unit key

theorem mem_undeclaredIn_iff {legend : Legend} {text key : String} :
    key ∈ RuleTable.undeclaredIn legend text ↔
      key.toList ∈ placeholderKeys text.toList ∧ legend.get? key = none := by
  simp only [RuleTable.undeclaredIn, List.mem_eraseDups, List.mem_filter, List.mem_map,
    Dict.contains, Bool.not_eq_true', Option.isSome_eq_false_iff, Option.isNone_iff_eq_none]
  apply and_congr_left
  intro _
  constructor
  · rintro ⟨written, member, rfl⟩
    simpa using member
  · intro member
    exact ⟨key.toList, member, by simp⟩

theorem Rule.TakesAsWord.mem_undeclaredIn {legend : Legend} {policy : OperandPolicy} {text : String}
    {rule : Rule} {key : List Char} (compiled : Rule.compile legend policy text = .ok rule)
    (taken : rule.TakesAsWord key) : String.ofList key ∈ RuleTable.undeclaredIn legend text := by
  obtain ⟨head, rest, split, rfl⟩ := compile_eq_ok_iff.1 compiled
  obtain ⟨position, unit, slot, here, made, taken⟩ := taken
  rw [split, List.tail_cons] at here
  rw [List.getElem?_map, here, Option.map_some, Option.some.injEq] at made
  subst made
  obtain ⟨keyed, missing⟩ := taken.undeclared
  obtain ⟨commas, member, separates⟩ := exists_unit_of_mem_operandUnits (List.mem_of_getElem? here)
  refine mem_undeclaredIn_iff.2 ⟨?_, missing⟩
  rw [String.toList_ofList]
  apply mem_placeholderKeys_of_mem_units _ (keyed.append_commas separates)
  rw [split]
  exact List.mem_cons_of_mem head member

theorem mem_undeclared {table : RuleTable} {mnemonic text key : String} {rules : List String}
    (entry : (mnemonic, rules) ∈ table.entries) (listed : text ∈ rules)
    (undeclared : key ∈ RuleTable.undeclaredIn table.legend text) :
    ⟨mnemonic, text, key⟩ ∈ table.undeclared := by
  apply List.mem_flatMap.2
  refine ⟨(mnemonic, rules), ?_, List.mem_flatMap.2 ⟨text, listed, List.mem_map_of_mem undeclared⟩⟩
  rw [List.mem_append, or_comm]
  exact List.mem_append.1 entry

theorem exists_entry_of_mem_usages {table : RuleTable} {policy : OperandPolicy} {usage : Usage}
    (member : usage ∈ (Grammar.ofTable table policy).usages.values) :
    ∃ entry ∈ table.entries, usage = Usage.compile table.legend policy entry := by
  obtain ⟨_, stored, rfl⟩ := List.mem_map.1 member
  obtain ⟨_, compiled, rfl⟩ := List.mem_map.1 (Dict.mem_of_mem_ofList stored)
  obtain ⟨entry, given, rfl⟩ := List.mem_map.1 compiled
  exact ⟨entry, given, rfl⟩

/-- Every key of a rule that compiles to a plain word is listed as undeclared, with its rule and the
mnemonic of the rule. So in the grammar of a table without undeclared keys no key is a plain
word. -/
theorem keys_taken_as_words_undeclared (table : RuleTable) (policy : OperandPolicy) :
    (∀ mnemonic rules text rule key, (mnemonic, rules) ∈ table.entries → text ∈ rules →
      Rule.compile table.legend policy text = .ok rule → rule.TakesAsWord key →
      ⟨mnemonic, text, String.ofList key⟩ ∈ table.undeclared) ∧
    (table.undeclared = [] → ∀ usage ∈ (Grammar.ofTable table policy).usages.values,
      ∀ rule, .ok rule ∈ usage.rules → ∀ key, ¬ rule.TakesAsWord key) := by
  have found : ∀ mnemonic rules text rule key, (mnemonic, rules) ∈ table.entries → text ∈ rules →
      Rule.compile table.legend policy text = .ok rule → rule.TakesAsWord key →
      ⟨mnemonic, text, String.ofList key⟩ ∈ table.undeclared := by
    intro mnemonic rules text rule key entry listed compiled taken
    exact mem_undeclared entry listed (taken.mem_undeclaredIn compiled)
  refine ⟨found, ?_⟩
  intro none usage member rule listed key taken
  obtain ⟨⟨mnemonic, rules⟩, entry, rfl⟩ := exists_entry_of_mem_usages member
  obtain ⟨text, given, compiled⟩ := List.mem_map.1 listed
  have undeclared := found mnemonic rules text rule key entry given compiled taken
  simp [none] at undeclared

theorem keys_taken_as_words_in_one_table :
    let table (legend : Legend) : RuleTable :=
      ⟨"1.0.0", "t", legend, Dict.ofList [("BAR", ["BAR %q, (%q+1)"])], Dict.empty, []⟩
    ⟨"BAR", "BAR %q, (%q+1)", "q"⟩ ∈ (table Dict.empty).undeclared ∧
      ∀ usage ∈ (Grammar.ofTable (table (Dict.ofList [("q", .tokens ["A"])]))
          ⟨true, true⟩).usages.values,
        ∀ rule, .ok rule ∈ usage.rules → ∀ key, ¬ rule.TakesAsWord key := by
  intro table
  constructor
  · have ⟨found, _⟩ := keys_taken_as_words_undeclared (table Dict.empty) ⟨true, true⟩
    have compiled : Rule.compile Dict.empty ⟨true, true⟩ "BAR %q, (%q+1)" =
        .ok ⟨"BAR %q, (%q+1)", "BAR",
          [.literal "Q", .pattern "(%q+1)" ['('] ['+', '1', ')'] (.word "Q")]⟩ := by rfl
    exact found "BAR" ["BAR %q, (%q+1)"] _ _ ['q'] (by decide) (by decide) compiled
      ⟨1, ['(', '%', 'q', '+', '1', ')'], _, by decide, rfl, .gap rfl⟩
  · exact (keys_taken_as_words_undeclared (table _) ⟨true, true⟩).2 (by decide)

end AsmLint
