import AsmLint.Grammar

/-! The words of a rule table. A grammar compiles a table once and looks words up in sets of upper
case spellings; here each look-up is said of the table itself, letter case aside. -/

namespace AsmLint

theorem val_toUpper {c : Char} (lower : 'a'.val ≤ c.val ∧ c.val ≤ 'z'.val) :
    c.toUpper.val = c.val + ('A'.val - 'a'.val) := by
  delta Char.toUpper
  rw [dif_pos lower]

theorem toUpper_eq_self {c : Char} (notLower : ¬ ('a'.val ≤ c.val ∧ c.val ≤ 'z'.val)) :
    c.toUpper = c :=
  dif_neg notLower

theorem toUpper_toUpper (c : Char) : c.toUpper.toUpper = c.toUpper := by
  by_cases lower : 'a'.val ≤ c.val ∧ c.val ≤ 'z'.val
  · apply toUpper_eq_self
    rw [val_toUpper lower]
    grind
  · rw [toUpper_eq_self lower, toUpper_eq_self lower]

theorem upper_upper (text : List Char) : upper (upper text) = upper text := by
  rw [upper, upper, List.map_map]
  apply List.map_congr_left
  intro c _
  exact toUpper_toUpper c

theorem toUpper_eq_iff {c mark : Char} (noLetter : mark.isAlpha = false) :
    c.toUpper = mark ↔ c = mark := by
  by_cases lower : 'a'.val ≤ c.val ∧ c.val ≤ 'z'.val
  · delta Char.isAlpha Char.isUpper Char.isLower at noLetter
    rw [Char.ext_iff, Char.ext_iff, val_toUpper lower]
    simp only [Bool.or_eq_false_iff, Bool.and_eq_false_iff, decide_eq_false_iff_not] at noLetter
    grind
  · rw [toUpper_eq_self lower]

theorem inClass_toUpper {inClass : Char → Bool}
    (letters : ∀ c : Char, c.isAlpha = true → inClass c = true) (c : Char) :
    inClass c.toUpper = inClass c := by
  by_cases lower : 'a'.val ≤ c.val ∧ c.val ≤ 'z'.val
  · have small : c.isAlpha = true := by
      delta Char.isAlpha Char.isLower
      rw [Bool.or_eq_true, Bool.and_eq_true, decide_eq_true_iff, decide_eq_true_iff]
      exact .inr lower
    have raised : c.toUpper.isAlpha = true := by
      delta Char.isAlpha Char.isUpper
      rw [Bool.or_eq_true, decide_eq_true_iff, val_toUpper lower]
      left
      grind
    rw [letters _ raised, letters _ small]
  · rw [toUpper_eq_self lower]

theorem mem_upper_iff {mark : Char} (noLetter : mark.isAlpha = false) {text : List Char} :
    mark ∈ upper text ↔ mark ∈ text := by
  simp [upper, toUpper_eq_iff noLetter]

@[simp] theorem toList_upperName (word : String) : (upperName word).toList = upper word.toList :=
  String.toList_ofList

theorem sameNameIgnoringCase_iff {a b : String} :
    sameNameIgnoringCase a b = true ↔ upperName a = upperName b := by
  rw [sameNameIgnoringCase, sameIgnoringCase_iff, upperName, upperName, String.ofList_inj]

namespace RuleTable

def entries (table : RuleTable) : List (String × List String) :=
  table.directives.entries ++ table.instructions.entries

/-- The entry that counts for a key in upper case: of several, the last. -/
def entryOf? (table : RuleTable) (key : String) : Option (String × List String) :=
  table.entries.reverse.find? fun entry => upperName entry.1 == key

theorem entryOf?_eq_some {table : RuleTable} {key : String} {entry : String × List String}
    (found : table.entryOf? key = some entry) : entry ∈ table.entries ∧ upperName entry.1 = key :=
  ⟨List.mem_reverse.1 (List.mem_of_find?_eq_some found), by simpa using List.find?_some found⟩

def entryFor? (table : RuleTable) (word : String) : Option (String × List String) :=
  (table.entryOf? (upperName word)).or
    ((Grammar.stem? (upperName word)).bind table.entryOf?)

/-- Letter case aside the word is a key of the table, the first word of a rule, or a token of the
legend. -/
inductive Knows (table : RuleTable) (word : String) : Prop where
  | key {entry} : entry ∈ table.entries → sameNameIgnoringCase entry.1 word = true →
      Knows table word
  | head {entry rule head} : entry ∈ table.entries → rule ∈ entry.2 →
      (units rule.toList).head? = some head → sameIgnoringCase head word.toList = true →
      Knows table word
  | token {token} : token ∈ table.legendTokens → sameNameIgnoringCase token word = true →
      Knows table word

def isDeclarationKeyword (table : RuleTable) (word : String) : Bool :=
  table.declarationKeywords.any fun keyword => sameNameIgnoringCase keyword word

end RuleTable

theorem compile_eq_ok_iff {legend : Legend} {policy : OperandPolicy} {text : String} {rule : Rule} :
    Rule.compile legend policy text = .ok rule ↔
      ∃ head rest, units text.toList = head :: rest ∧
        rule = ⟨text, String.ofList (upper head),
          (operandUnits rest).map (Slot.ofUnit legend policy)⟩ := by
  rw [Rule.compile]
  cases units text.toList with
  | nil => simp
  | cons head rest =>
    constructor
    · intro compiled
      exact ⟨head, rest, rfl, (Except.ok.inj compiled).symm⟩
    · rintro ⟨_, _, ⟨⟩, rfl⟩
      rfl

theorem head?_upper_eq_percent_iff {text : List Char} :
    (upper text).head? = some '%' ↔ text.head? = some '%' := by
  simp [upper, @toUpper_eq_iff _ '%' (by decide)]

theorem mem_heads_iff {legend : Legend} {policy : OperandPolicy} {entry : String × List String}
    {word : String} :
    word ∈ (Usage.compile legend policy entry).heads ↔
      ∃ rule ∈ entry.2, ∃ head, (units rule.toList).head? = some head ∧
        head.head? ≠ some '%' ∧ String.ofList (upper head) = word := by
  simp only [Usage.heads, Usage.compile, List.mem_filterMap, List.mem_map]
  constructor
  · rintro ⟨_, ⟨text, member, rfl⟩, found⟩
    cases compiled : Rule.compile legend policy text with
    | error error => simp [compiled] at found
    | ok rule =>
      obtain ⟨head, rest, split, rfl⟩ := compile_eq_ok_iff.1 compiled
      simp only [compiled, String.toList_ofList, head?_upper_eq_percent_iff,
        Option.ite_none_left_eq_some, Option.some.injEq] at found
      exact ⟨text, member, head, by rw [split, List.head?_cons], found.1, found.2⟩
  · rintro ⟨text, member, head, first, plain, rfl⟩
    obtain ⟨rest, split⟩ := List.head?_eq_some_iff.1 first
    refine ⟨_, ⟨text, member, rfl⟩, ?_⟩
    rw [compile_eq_ok_iff.2 ⟨head, rest, split, rfl⟩]
    simp [head?_upper_eq_percent_iff, plain]

namespace Grammar

variable {table : RuleTable} {policy : OperandPolicy} {word : String}

theorem isDeclarationKeyword_ofTable (table : RuleTable) (policy : OperandPolicy) :
    (ofTable table policy).isDeclarationKeyword = table.isDeclarationKeyword := by
  funext word
  have same : ∀ keyword, sameNameIgnoringCase (upperName keyword) word =
      sameNameIgnoringCase keyword word := by
    intro keyword
    simp [sameNameIgnoringCase, sameIgnoringCase, upper_upper]
  simp [isDeclarationKeyword, RuleTable.isDeclarationKeyword, ofTable, List.any_map,
    Function.comp_def, same]

theorem isKeyword_ofTable_iff :
    (ofTable table policy).isKeyword word = true ↔
      ∃ token ∈ table.legendTokens, sameNameIgnoringCase token word = true := by
  simp [isKeyword, ofTable, upperSet, NameSet.contains_ofList, sameNameIgnoringCase_iff]

theorem isMnemonic_ofTable_iff (plain : word.toList.head? ≠ some '%') :
    (ofTable table policy).isMnemonic word = true ↔
      (∃ entry ∈ table.entries, sameNameIgnoringCase entry.1 word = true) ∨
        ∃ entry ∈ table.entries, ∃ rule ∈ entry.2, ∃ head,
          (units rule.toList).head? = some head ∧ sameIgnoringCase head word.toList = true := by
  have key : ∀ entry : String × List String,
      upperName word = (Usage.compile table.legend policy entry).mnemonic ↔
        sameNameIgnoringCase entry.1 word = true := by
    intro entry
    rw [sameNameIgnoringCase_iff, eq_comm]
    rfl
  have head : ∀ entry : String × List String,
      upperName word ∈ (Usage.compile table.legend policy entry).heads ↔
        ∃ rule ∈ entry.2, ∃ head, (units rule.toList).head? = some head ∧
          sameIgnoringCase head word.toList = true := by
    intro entry
    simp only [mem_heads_iff, sameIgnoringCase_iff, upperName, String.ofList_inj]
    constructor
    · rintro ⟨rule, member, head, first, -, same⟩
      exact ⟨rule, member, head, first, same⟩
    · rintro ⟨rule, member, head, first, same⟩
      refine ⟨rule, member, head, first, ?_, same⟩
      rw [Ne, ← head?_upper_eq_percent_iff, same, head?_upper_eq_percent_iff]
      exact plain
  simp only [isMnemonic, ofTable, NameSet.contains_ofList, List.flatMap_map, List.mem_flatMap,
    List.mem_cons, key, head, RuleTable.entries, and_or_left, exists_or]

theorem knows_iff (plain : word.toList.head? ≠ some '%') :
    (ofTable table policy).isMnemonic word = true ∨ (ofTable table policy).isKeyword word = true ↔
      table.Knows word := by
  rw [isMnemonic_ofTable_iff plain, isKeyword_ofTable_iff]
  constructor
  · rintro ((⟨entry, member, same⟩ | ⟨entry, member, rule, listed, head, first, same⟩) |
      ⟨token, member, same⟩)
    · exact .key member same
    · exact .head member listed first same
    · exact .token member same
  · rintro (⟨member, same⟩ | ⟨member, listed, first, same⟩ | ⟨member, same⟩)
    · exact .inl (.inl ⟨_, member, same⟩)
    · exact .inl (.inr ⟨_, member, _, listed, _, first, same⟩)
    · exact .inr ⟨_, member, same⟩

theorem lookup_map_entries {entries : List (String × List String)} {legend : Legend}
    (key : String) :
    (entries.map fun entry =>
        (upperName entry.1, Usage.compile legend policy entry)).lookup key =
      (entries.find? fun entry => upperName entry.1 == key).map (Usage.compile legend policy) := by
  induction entries with
  | nil => rfl
  | cons entry rest ih =>
    rw [List.map_cons, Dict.lookup_first, List.find?_cons, ih]
    by_cases same : key = upperName entry.1
    · simp [same]
    · have differs : (upperName entry.1 == key) = false := beq_eq_false_iff_ne.2 (Ne.symm same)
      simp [same, differs]

theorem get?_usages (key : String) :
    (ofTable table policy).usages.get? key =
      (table.entryOf? key).map (Usage.compile table.legend policy) := by
  have stored : (ofTable table policy).usages = Dict.ofList (table.entries.map fun entry =>
      (upperName entry.1, Usage.compile table.legend policy entry)) := by
    simp only [ofTable, List.map_map]
    rfl
  rw [stored, Dict.get?_ofList, ← List.map_reverse, lookup_map_entries]
  rfl

theorem lookup_ofTable (word : String) :
    (ofTable table policy).lookup word =
      (table.entryFor? word).map (Usage.compile table.legend policy) := by
  unfold lookup RuleTable.entryFor?
  dsimp only
  rw [Option.map_or, get?_usages]
  cases stem? (upperName word) with
  | none => rfl
  | some stem => simp [get?_usages]

theorem lookup_congr (grammar : Grammar) {other : String}
    (same : upperName word = upperName other) : grammar.lookup word = grammar.lookup other := by
  rw [lookup, lookup, same]

theorem exists_entry_of_lookup {usage : Usage}
    (found : (ofTable table policy).lookup word = some usage) :
    ∃ entry ∈ table.entries, usage = Usage.compile table.legend policy entry := by
  rw [lookup_ofTable, Option.map_eq_some_iff] at found
  obtain ⟨entry, listed, rfl⟩ := found
  refine ⟨entry, ?_, rfl⟩
  rw [RuleTable.entryFor?, Option.or_eq_some_iff, Option.bind_eq_some_iff] at listed
  obtain whole | ⟨-, stem, -, short⟩ := listed
  · exact (RuleTable.entryOf?_eq_some whole).1
  · exact (RuleTable.entryOf?_eq_some short).1

theorem upper_head_of_lookup {usage : Usage} {rule : Rule}
    (found : (ofTable table policy).lookup word = some usage) (member : .ok rule ∈ usage.rules) :
    upper rule.head.toList = rule.head.toList := by
  obtain ⟨entry, -, rfl⟩ := exists_entry_of_lookup found
  obtain ⟨text, -, compiled⟩ := List.mem_map.1 member
  obtain ⟨head, rest, -, rfl⟩ := compile_eq_ok_iff.1 compiled
  rw [String.toList_ofList, upper_upper]

end Grammar

end AsmLint
