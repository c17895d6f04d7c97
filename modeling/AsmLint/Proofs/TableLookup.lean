import AsmLint.Proofs.LongestRun
import AsmLint.Proofs.Vocabulary
import Mathlib.Data.List.Forall2

/-! Look-up in a grammar, said of its rule table. Several keys of a table can be one word in upper
case, in one of its two maps or in both. An instruction goes before a directive, and within a map
the key counts that is greatest by its bytes, since the order of texts is that of their bytes. A
word without an entry falls back to its part before the first dot. Where no two keys share a word
this is the plain look-up in the table. -/

namespace AsmLint

section ByteOrder

def utf8Bytes (text : String) : List UInt8 := text.toByteArray.data.toList

theorem utf8Bytes_eq (text : String) :
    utf8Bytes text = text.toList.flatMap String.utf8EncodeChar := by
  rw [utf8Bytes, ← String.utf8Encode_toList, List.utf8Encode, List.data_toByteArray]

/-- Of two numbers below the bound the smaller one has the smaller bytes, whatever follows them. -/
def Increasing (bytes : Nat → List UInt8) (bound : Nat) : Prop :=
  ∀ u v rest other, u < v → v < bound → bytes u ++ rest < bytes v ++ other

def leadByte (marker number : Nat) : List UInt8 := [UInt8.ofNat (number + marker)]

def extended (bytes : Nat → List UInt8) (number : Nat) : List UInt8 :=
  bytes (number / 64) ++ leadByte 0x80 (number % 64)

theorem leadByte_append_lt {marker marker' u v : Nat} (less : u + marker < v + marker')
    (fits : v + marker' < 256) (rest other : List UInt8) :
    leadByte marker u ++ rest < leadByte marker' v ++ other := by
  apply List.cons_lt_cons_iff.2
  left
  rw [UInt8.lt_iff_toNat_lt, UInt8.toNat_ofNat', UInt8.toNat_ofNat']
  omega

theorem increasing_leadByte {marker bound : Nat} (fits : bound + marker ≤ 256) :
    Increasing (leadByte marker) bound :=
  fun _ _ rest other less below => leadByte_append_lt (by omega) (by omega) rest other

theorem extended_append (bytes : Nat → List UInt8) (number : Nat) (rest : List UInt8) :
    extended bytes number ++ rest = bytes (number / 64) ++ (leadByte 0x80 (number % 64) ++ rest) :=
  List.append_assoc ..

theorem increasing_extended {bytes : Nat → List UInt8} {bound : Nat}
    (increasing : Increasing bytes bound) : Increasing (extended bytes) (bound * 64) := by
  intro u v rest other less below
  rw [extended_append, extended_append]
  by_cases front : u / 64 = v / 64
  · rw [front]
    apply List.append_left_lt
    exact leadByte_append_lt (by omega) (by omega) rest other
  · exact increasing _ _ _ _ (by omega) (by omega)

inductive Encoded : Nat → List UInt8 → Prop where
  | one {number} : number < 0x80 → Encoded number (leadByte 0 number)
  | two {number} : 0x80 ≤ number → number < 0x800 →
      Encoded number (extended (leadByte 0xc0) number)
  | three {number} : 0x800 ≤ number → number < 0x10000 →
      Encoded number (extended (extended (leadByte 0xe0)) number)
  | four {number} : 0x10000 ≤ number → number < 0x110000 →
      Encoded number (extended (extended (extended (leadByte 0xf0))) number)

theorem encoded_utf8EncodeChar (c : Char) : Encoded c.toNat (String.utf8EncodeChar c) := by
  have bound : c.toNat < 0x110000 := by
    rcases c.valid with low | ⟨-, high⟩
    · exact Nat.lt_trans low (by decide)
    · exact high
  have number : c.val.toNat = c.toNat := rfl
  rw [String.utf8EncodeChar, number]
  split
  case isTrue small => exact .one (by omega)
  case isFalse notOne =>
    split
    case isTrue small =>
      have lead : c.toNat / 64 % 32 = c.toNat / 64 := by omega
      rw [lead]
      exact .two (by omega) (by omega)
    case isFalse notTwo =>
      split
      case isTrue small =>
        have lead : c.toNat / 4096 % 16 = c.toNat / 64 / 64 := by omega
        rw [lead]
        exact .three (by omega) (by omega)
      case isFalse notThree =>
        have lead : c.toNat / 262144 % 8 = c.toNat / 64 / 64 / 64 := by omega
        have next : c.toNat / 4096 = c.toNat / 64 / 64 := by omega
        rw [lead, next]
        exact .four (by omega) (by omega)

theorem Encoded.append_lt {u v : Nat} {first second : List UInt8} (small : Encoded u first)
    (large : Encoded v second) (less : u < v) (rest other : List UInt8) :
    first ++ rest < second ++ other := by
  have two := @increasing_extended _ 32 (@increasing_leadByte 0xc0 32 (by decide))
  have three := increasing_extended (increasing_extended (@increasing_leadByte 0xe0 16 (by decide)))
  have four := increasing_extended (increasing_extended (increasing_extended
    (@increasing_leadByte 0xf0 8 (by decide))))
  -- Characters of one size are told apart by all their bytes, those of two sizes by the first.
  cases small with
  | one below =>
    cases large with
    | one => exact leadByte_append_lt (by omega) (by omega) rest other
    | _ =>
      simp only [extended_append]
      exact leadByte_append_lt (by omega) (by omega) _ _
  | two above below =>
    cases large with
    | one => omega
    | two => exact two _ _ _ _ less (by omega)
    | _ =>
      simp only [extended_append]
      exact leadByte_append_lt (by omega) (by omega) _ _
  | three above below =>
    cases large with
    | three => exact three _ _ _ _ less (by omega)
    | four =>
      simp only [extended_append]
      exact leadByte_append_lt (by omega) (by omega) _ _
    | _ => omega
  | four above below =>
    cases large with
    | four => exact four _ _ _ _ less (by omega)
    | _ => omega

theorem flatMap_utf8EncodeChar_lt {first second : List Char} (less : first < second) :
    first.flatMap String.utf8EncodeChar < second.flatMap String.utf8EncodeChar := by
  induction first generalizing second with
  | nil =>
    cases second with
    | nil => exact absurd less (List.lt_irrefl [])
    | cons d second =>
      obtain ⟨byte, bytes, starts⟩ := List.exists_cons_of_ne_nil (@String.utf8EncodeChar_ne_nil d)
      rw [List.flatMap_nil, List.flatMap_cons, starts]
      exact List.nil_lt_cons byte _
  | cons c first ih =>
    cases second with
    | nil => exact absurd less (List.not_lt_nil _)
    | cons d second =>
      rw [List.flatMap_cons, List.flatMap_cons]
      rcases List.cons_lt_cons_iff.1 less with smaller | ⟨rfl, smaller⟩
      · exact (encoded_utf8EncodeChar c).append_lt (encoded_utf8EncodeChar d) smaller _ _
      · exact List.append_left_lt (ih smaller)

theorem utf8Bytes_lt {first second : String} (less : first < second) :
    utf8Bytes first < utf8Bytes second := by
  rw [utf8Bytes_eq, utf8Bytes_eq]
  exact flatMap_utf8EncodeChar_lt less

theorem utf8Bytes_le_iff {first second : String} :
    utf8Bytes first ≤ utf8Bytes second ↔ first ≤ second := by
  constructor
  · intro ordered
    rw [← String.not_lt]
    intro greater
    exact ordered (utf8Bytes_lt greater)
  · intro ordered
    by_cases same : first = second
    · rw [same]
      exact List.le_refl _
    · exact List.le_of_lt (utf8Bytes_lt (Dict.gt_of_not_lt_of_ne ordered (Ne.symm same)))

end ByteOrder

section Spellings

variable {α : Type}

/-- Of the keys that are `key` in upper case, `spelling` is the greatest by its bytes, and it stands
for `value`. -/
structure Dict.LastSpelling (dict : Dict α) (key spelling : String) (value : α) : Prop where
  stored : dict.get? spelling = some value
  raised : upperName spelling = key
  greatest : ∀ other ∈ dict.keys, upperName other = key → utf8Bytes other ≤ utf8Bytes spelling

theorem Dict.get?_eq_some_iff {dict : Dict α} {key : String} {value : α} :
    dict.get? key = some value ↔ (key, value) ∈ dict.entries := by
  obtain ⟨entries, sorted⟩ := dict
  change entries.lookup key = some value ↔ (key, value) ∈ entries
  induction entries with
  | nil => simp
  | cons entry rest ih =>
    obtain ⟨name, stored⟩ := entry
    obtain ⟨later, tail⟩ := List.pairwise_cons.1 sorted
    rw [Dict.lookup_first, List.mem_cons, ← ih tail, Prod.mk.injEq]
    by_cases same : key = name
    · subst same
      have absent : rest.lookup key ≠ some value := by
        intro found
        exact String.lt_irrefl key (later _ ((ih tail).1 found))
      simp [absent, eq_comm]
    · simp [same]

theorem Dict.mem_keys_of_get? {dict : Dict α} {key : String} {value : α}
    (stored : dict.get? key = some value) : key ∈ dict.keys :=
  List.mem_map.2 ⟨(key, value), Dict.get?_eq_some_iff.1 stored, rfl⟩

theorem Dict.lastSpelling_of_find? {dict : Dict α} {key spelling : String} {value : α}
    (found : (dict.entries.reverse.find? fun entry => upperName entry.1 == key) =
      some (spelling, value)) : dict.LastSpelling key spelling value := by
  obtain ⟨passes, after, before, split, refused⟩ := List.find?_eq_some_iff_append.1 found
  have listed : (spelling, value) ∈ dict.entries := by
    rw [← List.mem_reverse, split]
    simp
  have falling := List.pairwise_reverse.2 dict.sorted
  rw [split] at falling
  refine ⟨Dict.get?_eq_some_iff.2 listed, eq_of_beq passes, ?_⟩
  intro other member raised
  rw [utf8Bytes_le_iff]
  obtain ⟨entry, present, rfl⟩ := List.mem_map.1 member
  rw [← List.mem_reverse, split, List.mem_append, List.mem_cons] at present
  rcases present with greater | rfl | smaller
  · have differs := refused entry greater
    simp [raised] at differs
  · exact String.le_refl _
  · have less := (List.pairwise_cons.1 (List.pairwise_append.1 falling).2.1).1 entry smaller
    exact String.lt_asymm less

theorem Dict.find?_reverse_entries_iff {dict : Dict α} {key spelling : String} {value : α} :
    (dict.entries.reverse.find? fun entry => upperName entry.1 == key) = some (spelling, value) ↔
      dict.LastSpelling key spelling value := by
  refine ⟨Dict.lastSpelling_of_find?, fun last => ?_⟩
  cases found : dict.entries.reverse.find? fun entry => upperName entry.1 == key with
  | none =>
    have listed := Dict.get?_eq_some_iff.1 last.stored
    have refused := List.find?_eq_none.1 found _ (List.mem_reverse.2 listed)
    simp [last.raised] at refused
  | some entry =>
    obtain ⟨other, stored⟩ := entry
    have first := Dict.lastSpelling_of_find? found
    have below := first.greatest spelling (Dict.mem_keys_of_get? last.stored) last.raised
    have above := last.greatest other (Dict.mem_keys_of_get? first.stored) first.raised
    obtain rfl : other = spelling :=
      String.le_antisymm (utf8Bytes_le_iff.1 above) (utf8Bytes_le_iff.1 below)
    rw [Option.some.inj (first.stored.symm.trans last.stored)]

theorem Dict.find?_reverse_entries_eq_none_iff {dict : Dict α} {key : String} :
    (dict.entries.reverse.find? fun entry => upperName entry.1 == key) = none ↔
      ∀ other ∈ dict.keys, upperName other ≠ key := by
  simp [Dict.keys]

end Spellings

namespace RuleTable

variable {table : RuleTable} {key spelling : String} {rules : List String}

inductive EntryOf (table : RuleTable) (key spelling : String) (rules : List String) : Prop where
  | instruction : table.instructions.LastSpelling key spelling rules →
      EntryOf table key spelling rules
  | directive : (∀ other ∈ table.instructions.keys, upperName other ≠ key) →
      table.directives.LastSpelling key spelling rules → EntryOf table key spelling rules

/-- The entries a word in upper case is looked up under: its own, and where no key of the table is
that word, the entry of its part before the first dot. -/
inductive LooksUp (table : RuleTable) (word : String) : (key : String) → Prop where
  | whole : LooksUp table word word
  | stem {key rest} : (∀ other ∈ table.mnemonics, upperName other ≠ word) →
      word.toList = key.toList ++ '.' :: rest → '.' ∉ key.toList → LooksUp table word key

theorem entryOf?_eq_some_iff :
    table.entryOf? key = some (spelling, rules) ↔ table.EntryOf key spelling rules := by
  rw [entryOf?, entries, List.reverse_append, List.find?_append, Option.or_eq_some_iff,
    Dict.find?_reverse_entries_iff, Dict.find?_reverse_entries_eq_none_iff,
    Dict.find?_reverse_entries_iff]
  constructor
  · rintro (last | ⟨none, last⟩)
    · exact .instruction last
    · exact .directive none last
  · rintro (last | ⟨none, last⟩)
    · exact .inl last
    · exact .inr ⟨none, last⟩

theorem entryOf?_eq_none_iff :
    table.entryOf? key = none ↔ ∀ other ∈ table.mnemonics, upperName other ≠ key := by
  rw [entryOf?, entries, List.reverse_append, List.find?_append, Option.or_eq_none_iff,
    Dict.find?_reverse_entries_eq_none_iff, Dict.find?_reverse_entries_eq_none_iff, mnemonics,
    List.forall_mem_append]

/-- Of two spellings the one in small letters comes later by its bytes, and an instruction goes
before a directive. -/
example :
    let table : RuleTable := ⟨"1.0.0", "t", Dict.empty,
      Dict.ofList [("ld", ["LD b"]), ("LD", ["LD a"])], Dict.ofList [("lD", ["LD c"])], []⟩
    table.entryOf? "LD" = some ("ld", ["LD b"]) := by
  decide

theorem exists_entryOf_iff :
    (∃ spelling rules, table.EntryOf key spelling rules) ↔
      ∃ other ∈ table.mnemonics, upperName other = key := by
  have missing := @entryOf?_eq_none_iff table key
  simp only [← entryOf?_eq_some_iff]
  cases found : table.entryOf? key with
  | none =>
    have absent := missing.1 found
    simpa using absent
  | some entry =>
    have present : ¬ ∀ other ∈ table.mnemonics, upperName other ≠ key := by
      rw [← missing, found]
      simp
    exact iff_of_true ⟨entry.1, entry.2, rfl⟩ (by simpa using present)

theorem stem?_eq_some_iff {word : String} :
    Grammar.stem? word = some key ↔
      ∃ rest, word.toList = key.toList ++ '.' :: rest ∧ '.' ∉ key.toList := by
  rw [Grammar.stem?, Option.ite_none_right_eq_some, Option.some.injEq, List.contains_iff_mem]
  have run := longestRun_takeWhile (· != '.') word.toList
  constructor
  · rintro ⟨dotted, rfl⟩
    rw [String.toList_ofList]
    have noDot : '.' ∉ word.toList.takeWhile (· != '.') := by
      intro member
      simpa using run.inside '.' member
    cases after : word.toList.dropWhile (· != '.') with
    | nil =>
      rw [run.split, after, List.append_nil] at dotted
      exact absurd dotted noDot
    | cons c rest =>
      obtain rfl : c = '.' := by simpa [after] using run.stops
      exact ⟨rest, after ▸ run.split, noDot⟩
  · rintro ⟨rest, split, noDot⟩
    have first : LongestRun (· != '.') word.toList key.toList ('.' :: rest) := by
      refine ⟨split, fun c member => ?_, by simp⟩
      rw [bne_iff_ne]
      rintro rfl
      exact noDot member
    rw [first.takeWhile_eq, String.ofList_toList]
    exact ⟨by simp [split], rfl⟩

theorem entryFor?_eq_some_iff {word : String} :
    table.entryFor? word = some (spelling, rules) ↔
      ∃ key, table.LooksUp (upperName word) key ∧ table.EntryOf key spelling rules := by
  rw [entryFor?, Option.or_eq_some_iff, Option.bind_eq_some_iff, entryOf?_eq_none_iff]
  simp only [entryOf?_eq_some_iff, stem?_eq_some_iff]
  constructor
  · rintro (found | ⟨missing, key, ⟨rest, split, noDot⟩, found⟩)
    · exact ⟨_, .whole, found⟩
    · exact ⟨key, .stem missing split noDot, found⟩
  · rintro ⟨key, looksUp, found⟩
    cases looksUp with
    | whole => exact .inl found
    | stem missing split noDot => exact .inr ⟨missing, key, ⟨_, split, noDot⟩, found⟩

theorem EntryOf.raised (entry : table.EntryOf key spelling rules) : upperName spelling = key := by
  cases entry with
  | instruction last => exact last.raised
  | directive _ last => exact last.raised

end RuleTable

section UpperCaseKeys

variable {α : Type} {table : RuleTable} {word : String} {rules : List String}

theorem Dict.lastSpelling_iff_of_upper {dict : Dict α} {value : α}
    (raised : ∀ key ∈ dict.keys, upperName key = key) :
    (∃ spelling, dict.LastSpelling word spelling value) ↔ dict.get? word = some value := by
  constructor
  · rintro ⟨spelling, last⟩
    have same : spelling = word :=
      (raised spelling (Dict.mem_keys_of_get? last.stored)).symm.trans last.raised
    exact same ▸ last.stored
  · intro stored
    refine ⟨word, stored, raised word (Dict.mem_keys_of_get? stored), fun other member same => ?_⟩
    rw [← raised other member, same]
    exact List.le_refl _

theorem Dict.get?_eq_none_iff_of_upper {dict : Dict α}
    (raised : ∀ key ∈ dict.keys, upperName key = key) :
    (∀ other ∈ dict.keys, upperName other ≠ word) ↔ dict.get? word = none := by
  constructor
  · intro refused
    cases found : dict.get? word with
    | none => rfl
    | some value =>
      have member := Dict.mem_keys_of_get? found
      exact absurd (raised word member) (refused word member)
  · rintro missing other member rfl
    obtain ⟨entry, listed, rfl⟩ := List.mem_map.1 member
    rw [raised _ member, Dict.get?_eq_some_iff.2 listed] at missing
    contradiction

theorem exists_entryOf_iff_rulesFor? (raised : ∀ key ∈ table.mnemonics, upperName key = key) :
    (∃ spelling, table.EntryOf word spelling rules) ↔ table.rulesFor? word = some rules := by
  obtain ⟨instructions, directives⟩ := List.forall_mem_append.1 raised
  rw [RuleTable.rulesFor?, Option.or_eq_some_iff, ← Dict.lastSpelling_iff_of_upper instructions,
    ← Dict.lastSpelling_iff_of_upper directives, ← Dict.get?_eq_none_iff_of_upper instructions]
  constructor
  · rintro ⟨spelling, last | ⟨none, last⟩⟩
    · exact .inl ⟨spelling, last⟩
    · exact .inr ⟨none, spelling, last⟩
  · rintro (⟨spelling, last⟩ | ⟨none, spelling, last⟩)
    · exact ⟨spelling, .instruction last⟩
    · exact ⟨spelling, .directive none last⟩

end UpperCaseKeys

def CompiledFrom (text : String) : Except RuleError Rule → Prop
  | .ok rule => rule.text = text
  | .error _ => units text.toList = []

theorem compiledFrom_compile (legend : Legend) (policy : OperandPolicy) (text : String) :
    CompiledFrom text (Rule.compile legend policy text) := by
  rw [Rule.compile]
  cases words : units text.toList with
  | nil => exact words
  | cons head rest => exact Eq.refl text

section Lookup

variable (table : RuleTable) (policy : OperandPolicy) (word : String)

theorem lookup_eq_some_iff (usage : Usage) :
    (Grammar.ofTable table policy).lookup word = some usage ↔
      ∃ key spelling rules, table.LooksUp (upperName word) key ∧
        table.EntryOf key spelling rules ∧
        usage = ⟨key, rules.map (Rule.compile table.legend policy)⟩ := by
  rw [Grammar.lookup_ofTable, Option.map_eq_some_iff]
  constructor
  · rintro ⟨⟨spelling, rules⟩, found, rfl⟩
    obtain ⟨key, looksUp, entry⟩ := RuleTable.entryFor?_eq_some_iff.1 found
    exact ⟨key, spelling, rules, looksUp, entry, by rw [Usage.compile, entry.raised]⟩
  · rintro ⟨key, spelling, rules, looksUp, entry, rfl⟩
    refine ⟨(spelling, rules), RuleTable.entryFor?_eq_some_iff.2 ⟨key, looksUp, entry⟩, ?_⟩
    rw [Usage.compile, entry.raised]

variable {table word}

theorem lookup_eq_map_rulesFor? (raised : ∀ key ∈ table.mnemonics, upperName key = key)
    (upperWord : upperName word = word) (noDot : '.' ∉ word.toList) :
    (Grammar.ofTable table policy).lookup word =
      (table.rulesFor? word).map fun rules =>
        ⟨word, rules.map (Rule.compile table.legend policy)⟩ := by
  apply Option.ext
  intro usage
  rw [lookup_eq_some_iff, upperWord, Option.map_eq_some_iff]
  simp only [← exists_entryOf_iff_rulesFor? raised]
  constructor
  · rintro ⟨key, spelling, rules, looksUp, entry, rfl⟩
    cases looksUp with
    | whole => exact ⟨rules, ⟨spelling, entry⟩, rfl⟩
    | stem _ split _ => simp [split] at noDot
  · rintro ⟨rules, ⟨spelling, entry⟩, rfl⟩
    exact ⟨word, spelling, rules, .whole, entry, rfl⟩

end Lookup

/-- A look-up gives the compiled rules of the entry of the word in upper case, or where there is
none, of the entry of its part before the first dot, and nothing if that is missing too. An entry
exists for each word that is a key in upper case. For words and keys in upper case the look-up and
the table agree on the texts of the rules and on what is missing. -/
theorem lookup_agrees_with_table (table : RuleTable) (policy : OperandPolicy) (word : String) :
    (∀ usage, (Grammar.ofTable table policy).lookup word = some usage ↔
      ∃ key spelling rules, table.LooksUp (upperName word) key ∧
        table.EntryOf key spelling rules ∧
        usage = ⟨key, rules.map (Rule.compile table.legend policy)⟩) ∧
    (∀ key, (∃ spelling rules, table.EntryOf key spelling rules) ↔
      ∃ other ∈ table.mnemonics, upperName other = key) ∧
    ((∀ key ∈ table.mnemonics, upperName key = key) → upperName word = word →
      '.' ∉ word.toList →
      ((Grammar.ofTable table policy).lookup word = none ↔ table.rulesFor? word = none) ∧
      ∀ usage, (Grammar.ofTable table policy).lookup word = some usage →
        ∃ texts, table.rulesFor? word = some texts ∧
          List.Forall₂ CompiledFrom texts usage.rules) := by
  refine ⟨lookup_eq_some_iff table policy word, fun _ => RuleTable.exists_entryOf_iff, ?_⟩
  intro raised upperWord noDot
  rw [lookup_eq_map_rulesFor? policy raised upperWord noDot]
  refine ⟨Option.map_eq_none_iff, fun usage found => ?_⟩
  obtain ⟨texts, listed, rfl⟩ := Option.map_eq_some_iff.1 found
  refine ⟨texts, listed, ?_⟩
  rw [List.forall₂_map_right_iff, List.forall₂_same]
  exact fun text _ => compiledFrom_compile table.legend policy text

theorem lookup_agrees_with_table_of_two_maps :
    let table : RuleTable := ⟨"1.0.0", "t", Dict.empty, Dict.ofList [("SET", ["SET 1", " "])],
      Dict.ofList [("SET", ["SET x"]), ("ORG", ["ORG x"])], []⟩
    (∀ key ∈ table.mnemonics, upperName key = key) ∧ upperName "SET" = "SET" ∧
      '.' ∉ "SET".toList ∧
      ∃ usage, (Grammar.ofTable table ⟨true, true⟩).lookup "SET" = some usage ∧
        List.Forall₂ CompiledFrom ["SET 1", " "] usage.rules := by
  intro table
  have raised : ∀ key ∈ table.mnemonics, upperName key = key := by decide
  have listed : table.rulesFor? "SET" = some ["SET 1", " "] := by decide
  obtain ⟨missing, texts⟩ :=
    (lookup_agrees_with_table table ⟨true, true⟩ "SET").2.2 raised (by decide) (by decide)
  refine ⟨raised, by decide, by decide, ?_⟩
  obtain ⟨usage, found⟩ : ∃ usage, (Grammar.ofTable table ⟨true, true⟩).lookup "SET" = some usage :=
    Option.ne_none_iff_exists'.1 fun absent => by simp [missing.1 absent] at listed
  obtain ⟨given, same, compiled⟩ := texts usage found
  obtain rfl := Option.some.inj (listed.symm.trans same)
  exact ⟨usage, found, compiled⟩

end AsmLint
