import AsmLint.Proofs.Positions

/-! Templates by their parts. A template is read in one way as literal pieces, groups in braces and
perhaps a brace that nothing closes; the message has every part in its place, a group with a known
key as the value of the key. What the values hold plays no role in how the template is read. -/

namespace AsmLint

/-- A literal piece, a group from a brace to the next closing one, or an opening brace that nothing
closes with all that follows it. -/
inductive TemplatePart where
  | literal (text : List Char)
  | group (key : List Char)
  | unclosed (text : List Char)
deriving DecidableEq, Repr

namespace TemplatePart

def written : TemplatePart → List Char
  | literal text => text
  | group key => '\x7b' :: key ++ ['\x7d']
  | unclosed text => '\x7b' :: text

def filled (value? : String → Option String) (part : TemplatePart) : List Char :=
  match part with
  | literal text => text
  | group key => ((value? (String.ofList key)).map String.toList).getD (group key).written
  | unclosed text => (unclosed text).written

def isLiteral : TemplatePart → Bool
  | literal _ => true
  | _ => false

end TemplatePart

/-- The parts can stand in this order. A literal piece is not cut in two, and nothing stands after a
brace that is not closed. -/
def Readable : (parts : List TemplatePart) → Prop
  | [] => True
  | .literal text :: parts =>
    text ≠ [] ∧ '\x7b' ∉ text ∧ parts.head?.any TemplatePart.isLiteral = false ∧ Readable parts
  | .group key :: parts => '\x7d' ∉ key ∧ Readable parts
  | .unclosed text :: parts => '\x7d' ∉ text ∧ parts = []

structure ReadsAs (template : List Char) (parts : List TemplatePart) : Prop where
  written : template = parts.flatMap TemplatePart.written
  readable : Readable parts

def readTemplate (template : List Char) : List TemplatePart :=
  match template with
  | [] => []
  | c :: rest =>
    if c = '\x7b' then
      let tail := rest.dropWhile (· != '\x7d')
      if tail.isEmpty then [.unclosed rest]
      else .group (rest.takeWhile (· != '\x7d')) :: readTemplate tail.tail
    else
      .literal (c :: rest.takeWhile (· != '\x7b')) :: readTemplate (rest.dropWhile (· != '\x7b'))
termination_by template.length
decreasing_by
  · have shorter := (List.dropWhile_sublist (l := rest) (p := (· != '\x7d'))).length_le
    simp only [List.length_cons, List.length_tail]
    omega
  · have shorter := (List.dropWhile_sublist (l := rest) (p := (· != '\x7b'))).length_le
    simp only [List.length_cons]
    omega

section Reading

variable {template text key rest : List Char} {parts : List TemplatePart}

theorem allIn_ne_iff {c : Char} : AllIn (· != c) text ↔ c ∉ text := by
  simp [AllIn, List.forall_mem_ne']

theorem longestRun_group (closes : '\x7d' ∉ key) (rest : List Char) :
    LongestRun (· != '\x7d') (key ++ '\x7d' :: rest) key ('\x7d' :: rest) :=
  ⟨rfl, allIn_ne_iff.2 closes, startsOutside_cons.2 (by decide)⟩

theorem longestRun_unclosed (unclosed : '\x7d' ∉ text) :
    LongestRun (· != '\x7d') text text [] :=
  ⟨(List.append_nil text).symm, allIn_ne_iff.2 unclosed, startsOutside_nil _⟩

theorem readTemplate_literal (nonempty : text ≠ []) (plain : '\x7b' ∉ text)
    (stops : StartsOutside (· != '\x7b') rest) :
    readTemplate (text ++ rest) = .literal text :: readTemplate rest := by
  obtain ⟨c, more, rfl⟩ := List.exists_cons_of_ne_nil nonempty
  have different : c ≠ '\x7b' := (List.ne_of_not_mem_cons plain).symm
  have run : LongestRun (· != '\x7b') (more ++ rest) more rest :=
    ⟨rfl, allIn_ne_iff.2 (List.not_mem_of_not_mem_cons plain), stops⟩
  rw [List.cons_append, readTemplate, if_neg different, run.takeWhile_eq, run.dropWhile_eq]

theorem readTemplate_group (closes : '\x7d' ∉ key) (rest : List Char) :
    readTemplate ('\x7b' :: key ++ '\x7d' :: rest) = .group key :: readTemplate rest := by
  have run := longestRun_group closes rest
  rw [List.cons_append, readTemplate, if_pos rfl, run.takeWhile_eq, run.dropWhile_eq]
  rfl

theorem readTemplate_unclosed (unclosed : '\x7d' ∉ text) :
    readTemplate ('\x7b' :: text) = [.unclosed text] := by
  rw [readTemplate, if_pos rfl, (longestRun_unclosed unclosed).dropWhile_eq]
  rfl

theorem startsOutside_written (first : parts.head?.any TemplatePart.isLiteral = false) :
    StartsOutside (· != '\x7b') (parts.flatMap TemplatePart.written) := by
  cases parts with
  | nil => exact startsOutside_nil _
  | cons part parts =>
    cases part with
    | literal text => simp [TemplatePart.isLiteral] at first
    | group key => exact startsOutside_cons.2 (by decide)
    | unclosed text => exact startsOutside_cons.2 (by decide)

theorem readTemplate_written (readable : Readable parts) :
    readTemplate (parts.flatMap TemplatePart.written) = parts := by
  induction parts with
  | nil => rw [List.flatMap_nil, readTemplate]
  | cons part parts ih =>
    rw [List.flatMap_cons]
    cases part with
    | literal text =>
      obtain ⟨nonempty, plain, next, others⟩ := readable
      rw [TemplatePart.written, readTemplate_literal nonempty plain (startsOutside_written next),
        ih others]
    | group key =>
      obtain ⟨closes, others⟩ := readable
      rw [TemplatePart.written, List.append_assoc, List.singleton_append,
        readTemplate_group closes, ih others]
    | unclosed text =>
      obtain ⟨unclosed, rfl⟩ := readable
      rw [List.flatMap_nil, List.append_nil, TemplatePart.written, readTemplate_unclosed unclosed]

theorem isLiteral_head_readTemplate (stops : StartsOutside (· != '\x7b') template) :
    (readTemplate template).head?.any TemplatePart.isLiteral = false := by
  cases template with
  | nil =>
    rw [readTemplate]
    rfl
  | cons c rest =>
    have brace : c = '\x7b' := by simpa using startsOutside_cons.1 stops
    rw [readTemplate, if_pos brace]
    dsimp only
    split <;> rfl

theorem readsAs_readTemplate (template : List Char) :
    ReadsAs template (readTemplate template) := by
  fun_induction readTemplate template with
  | case1 => exact ⟨rfl, trivial⟩
  | case2 rest tail empty =>
    have run : LongestRun _ rest _ tail := longestRun_takeWhile (· != '\x7d') rest
    rw [List.isEmpty_iff.1 empty] at run
    have unclosed : '\x7d' ∉ rest := by
      rw [run.split, List.append_nil]
      exact allIn_ne_iff.1 run.inside
    exact ⟨(List.append_nil _).symm, unclosed, rfl⟩
  | case3 rest tail nonempty ih =>
    -- What is left after the key starts with the brace that closes the group.
    have run : LongestRun _ rest _ tail := longestRun_takeWhile (· != '\x7d') rest
    obtain ⟨d, after, split⟩ :=
      List.exists_cons_of_ne_nil (mt List.isEmpty_iff.2 nonempty)
    rw [split] at run
    obtain rfl : d = '\x7d' := by simpa using startsOutside_cons.1 run.stops
    refine ⟨?_, allIn_ne_iff.1 run.inside, ih.readable⟩
    rw [List.flatMap_cons, ← ih.written, split, List.tail_cons, TemplatePart.written,
      List.append_assoc, List.singleton_append]
    exact congrArg ('\x7b' :: ·) run.split
  | case4 c rest different ih =>
    have run := longestRun_takeWhile (· != '\x7b') rest
    have plain := allIn_ne_iff.1 run.inside
    refine ⟨?_, List.cons_ne_nil _ _, ?_, isLiteral_head_readTemplate run.stops, ih.readable⟩
    · rw [List.flatMap_cons, ← ih.written]
      exact congrArg (c :: ·) run.split
    · exact List.not_mem_cons_of_ne_of_not_mem (Ne.symm different) plain

theorem readsAs_iff : ReadsAs template parts ↔ parts = readTemplate template := by
  constructor
  · intro reads
    rw [reads.written, readTemplate_written reads.readable]
  · rintro rfl
    exact readsAs_readTemplate template

end Reading

section Filling

variable {text key rest : List Char} {values : Dict String} {parts : List TemplatePart}

theorem fillTemplate_literal (plain : '\x7b' ∉ text) (rest : List Char) :
    fillTemplate values (text ++ rest) = text ++ fillTemplate values rest := by
  induction text with
  | nil => rfl
  | cons c text ih =>
    have different : c ≠ '\x7b' := (List.ne_of_not_mem_cons plain).symm
    rw [List.cons_append, fillTemplate, if_neg different,
      ih (List.not_mem_of_not_mem_cons plain), List.cons_append]

theorem fillTemplate_group (closes : '\x7d' ∉ key) (rest : List Char) :
    fillTemplate values ('\x7b' :: key ++ '\x7d' :: rest) =
      (TemplatePart.group key).filled values.get? ++ fillTemplate values rest := by
  have run := longestRun_group closes rest
  rw [List.cons_append, fillTemplate, if_pos rfl, run.takeWhile_eq, run.dropWhile_eq]
  dsimp only
  rw [if_neg (by simp), List.tail_cons, TemplatePart.filled]
  cases values.get? (String.ofList key) <;> rfl

theorem fillTemplate_unclosed (unclosed : '\x7d' ∉ text) :
    fillTemplate values ('\x7b' :: text) = '\x7b' :: text := by
  rw [fillTemplate, if_pos rfl, (longestRun_unclosed unclosed).dropWhile_eq]
  rfl

theorem fillTemplate_written (readable : Readable parts) :
    fillTemplate values (parts.flatMap TemplatePart.written) =
      parts.flatMap (TemplatePart.filled values.get?) := by
  induction parts with
  | nil => rw [List.flatMap_nil, fillTemplate, List.flatMap_nil]
  | cons part parts ih =>
    rw [List.flatMap_cons, List.flatMap_cons]
    cases part with
    | literal text =>
      obtain ⟨-, plain, -, others⟩ := readable
      rw [TemplatePart.written, fillTemplate_literal plain, ih others, TemplatePart.filled]
    | group key =>
      obtain ⟨closes, others⟩ := readable
      rw [TemplatePart.written, List.append_assoc, List.singleton_append,
        fillTemplate_group closes, ih others]
    | unclosed text =>
      obtain ⟨unclosed, rfl⟩ := readable
      rw [List.flatMap_nil, List.append_nil, TemplatePart.written, fillTemplate_unclosed unclosed,
        List.flatMap_nil, List.append_nil, TemplatePart.filled, TemplatePart.written]

theorem fillTemplate_eq (values : Dict String) (template : List Char) :
    fillTemplate values template =
      (readTemplate template).flatMap (TemplatePart.filled values.get?) := by
  have reads := readsAs_readTemplate template
  conv_lhs => rw [reads.written]
  exact fillTemplate_written reads.readable

/-- A value that looks like a group is not read, and groups that nothing is known of stay. -/
example : fillTemplate (.ofList [("a", "\x7bb\x7d"), ("b", "x")])
    "\x7ba\x7d\x7bc\x7d\x7d\x7bb".toList = "\x7bb\x7d\x7bc\x7d\x7d\x7bb".toList := by
  decide +kernel

end Filling

/-- The value that is given for a key; of several the last. -/
def givenValue? (context : List (String × String)) (key : String) : Option String :=
  context.reverse.lookup key

theorem get?_ofList_eq_givenValue? (context : List (String × String)) :
    (Dict.ofList context).get? = givenValue? context :=
  funext fun key => Dict.get?_ofList context key

inductive Worded : Code → Wording → (context : List (String × String)) → (message : String) → Prop
  | misused (mnemonic reason variants : String) :
    Worded .invalidUsage .single
      [("mnemonic", mnemonic), ("reason", reason), ("variants", variants)]
      ("Invalid usage of " ++ mnemonic ++ ": " ++ reason)
  | misusedVariants (mnemonic reason variants : String) :
    Worded .invalidUsage .multiple
      [("mnemonic", mnemonic), ("reason", reason), ("variants", variants)]
      ("Invalid usage of " ++ mnemonic ++ ". Allowed variant(s): " ++ variants)
  | repeated (kind name firstLine : String) :
    Worded .duplicateDefinition .standard
      [("kind", kind), ("name", name), ("first_line", firstLine)]
      ("Duplicate definition: " ++ kind ++ " '" ++ name ++ "'")
  | undefined (name : String) :
    Worded .undefinedSymbol .standard [("name", name)]
      ("Reference to an undefined symbol: '" ++ name ++ "'")
  | unbalanced (depth : String) :
    Worded .unbalancedBlock .standard [("depth", depth)]
      ("Scoped block has unbalanced braces (net depth " ++ depth ++ ")")
  | unterminated (depth : String) :
    Worded .unterminatedMacro .standard [("depth", depth)] "MACRO block not closed (need ENDM)"

section Messages

variable {value? : String → Option String} {parts : List TemplatePart}

def filledText (value? : String → Option String) (parts : List TemplatePart) : String :=
  String.ofList (parts.flatMap (TemplatePart.filled value?))

theorem filledText_nil : filledText value? [] = "" := rfl

theorem filledText_literal (text : String) :
    filledText value? (.literal text.toList :: parts) = text ++ filledText value? parts := by
  rw [filledText, List.flatMap_cons, String.ofList_append, TemplatePart.filled,
    String.ofList_toList, filledText]

theorem filledText_group {key value : String} (given : value? key = some value) :
    filledText value? (.group key.toList :: parts) = value ++ filledText value? parts := by
  rw [filledText, List.flatMap_cons, String.ofList_append, TemplatePart.filled,
    String.ofList_toList, given, Option.map_some, Option.getD_some, String.ofList_toList,
    filledText]

theorem message_of_parts {code : Code} {wording : Wording} {template : String}
    (found : code.template? wording = some template) (reads : ReadsAs template.toList parts)
    (context : List (String × String)) (span : Span) :
    (Diagnostic.ofCode code wording span context).message =
      filledText (givenValue? context) parts := by
  change code.message wording (Dict.ofList context) = _
  rw [Code.message, found]
  dsimp only
  rw [reads.written, fillTemplate_written reads.readable, get?_ofList_eq_givenValue?, filledText]

theorem filledText_pair (text : String) {key value : String} (given : value? key = some value) :
    filledText value? (.literal text.toList :: .group key.toList :: parts) =
      text ++ value ++ filledText value? parts := by
  rw [filledText_literal, filledText_group given, String.append_assoc]

theorem Worded.message_eq {code : Code} {wording : Wording} {context : List (String × String)}
    {message : String} (worded : Worded code wording context message) (span : Span) :
    (Diagnostic.ofCode code wording span context).message = message := by
  cases worded with
  | misused mnemonic reason variants =>
    have reads : ReadsAs "Invalid usage of \x7bmnemonic\x7d: \x7breason\x7d".toList
        [.literal "Invalid usage of ".toList, .group "mnemonic".toList, .literal ": ".toList,
          .group "reason".toList] :=
      ⟨by simp [TemplatePart.written], by simp [Readable, TemplatePart.isLiteral]⟩
    rw [message_of_parts rfl reads, @filledText_pair _ _ _ _ mnemonic,
      @filledText_pair _ _ _ _ reason, filledText_nil, String.append_empty]
    · simp only [String.append_assoc]
    · rfl
    · rfl
  | misusedVariants mnemonic reason variants =>
    have reads : ReadsAs
        "Invalid usage of \x7bmnemonic\x7d. Allowed variant(s): \x7bvariants\x7d".toList
        [.literal "Invalid usage of ".toList, .group "mnemonic".toList,
          .literal ". Allowed variant(s): ".toList, .group "variants".toList] :=
      ⟨by simp [TemplatePart.written], by simp [Readable, TemplatePart.isLiteral]⟩
    rw [message_of_parts rfl reads, @filledText_pair _ _ _ _ mnemonic,
      @filledText_pair _ _ _ _ variants, filledText_nil, String.append_empty]
    · simp only [String.append_assoc]
    · rfl
    · rfl
  | repeated kind name firstLine =>
    have reads : ReadsAs "Duplicate definition: \x7bkind\x7d '\x7bname\x7d'".toList
        [.literal "Duplicate definition: ".toList, .group "kind".toList, .literal " '".toList,
          .group "name".toList, .literal "'".toList] :=
      ⟨by simp [TemplatePart.written], by simp [Readable, TemplatePart.isLiteral]⟩
    rw [message_of_parts rfl reads, @filledText_pair _ _ _ _ kind, @filledText_pair _ _ _ _ name,
      filledText_literal, filledText_nil, String.append_empty]
    · simp only [String.append_assoc]
    · rfl
    · rfl
  | undefined name =>
    have reads : ReadsAs "Reference to an undefined symbol: '\x7bname\x7d'".toList
        [.literal "Reference to an undefined symbol: '".toList, .group "name".toList,
          .literal "'".toList] :=
      ⟨by simp [TemplatePart.written], by simp [Readable, TemplatePart.isLiteral]⟩
    rw [message_of_parts rfl reads, @filledText_pair _ _ _ _ name, filledText_literal,
      filledText_nil, String.append_empty]
    rfl
  | unbalanced depth =>
    have reads : ReadsAs "Scoped block has unbalanced braces (net depth \x7bdepth\x7d)".toList
        [.literal "Scoped block has unbalanced braces (net depth ".toList, .group "depth".toList,
          .literal ")".toList] :=
      ⟨by simp [TemplatePart.written], by simp [Readable, TemplatePart.isLiteral]⟩
    rw [message_of_parts rfl reads, @filledText_pair _ _ _ _ depth, filledText_literal,
      filledText_nil, String.append_empty]
    rfl
  | unterminated depth =>
    have reads : ReadsAs "MACRO block not closed (need ENDM)".toList
        [.literal "MACRO block not closed (need ENDM)".toList] :=
      ⟨by simp [TemplatePart.written], by simp [Readable]⟩
    rw [message_of_parts rfl reads, filledText_literal, filledText_nil, String.append_empty]

def SaysContext (issue : Diagnostic) : Prop :=
  ∃ code wording span context, issue = .ofCode code wording span context ∧
    Worded code wording context issue.message

theorem Worded.saysContext {code : Code} {wording : Wording} {context : List (String × String)}
    {message : String} (worded : Worded code wording context message) (span : Span) :
    SaysContext (.ofCode code wording span context) :=
  ⟨code, wording, span, context, rfl, (worded.message_eq span).symm ▸ worded⟩

theorem saysContext_usageFinding (line : Nat) (code : List Char) (instruction : Instruction)
    (usage : Usage) (mismatches : List Mismatch) :
    SaysContext (usageFinding line code instruction usage mismatches) := by
  by_cases single : usage.rules.length = 1
  · simp only [usageFinding, if_pos single]
    exact (Worded.misused ..).saysContext _
  · simp only [usageFinding, if_neg single]
    exact (Worded.misusedVariants ..).saysContext _

theorem saysContext_checkBalance {nesting : Nesting} {issue : Diagnostic}
    (member : issue ∈ checkBalance nesting) : SaysContext issue := by
  rw [checkBalance, checkBraces, checkMacros] at member
  rcases List.mem_append.1 member with braces | macros
  · split at braces
    · simp at braces
    · rw [List.mem_singleton.1 braces]
      exact (Worded.unbalanced _).saysContext _
  · split at macros
    · simp at macros
    · rw [List.mem_singleton.1 macros]
      exact (Worded.unterminated _).saysContext _

theorem saysContext_of_mem {grammar : Grammar} {lines : List (List Char)} {issue : Diagnostic}
    (member : issue ∈ (validateLines grammar lines).issues) : SaysContext issue := by
  cases foundBy_of_mem member with
  | usage here found =>
    simp only [checkUsage, Option.bind_eq_some_iff, Option.map_eq_some_iff] at found
    obtain ⟨instruction, -, usage, -, mismatches, -, rfl⟩ := found
    exact saysContext_usageFinding ..
  | reference here found =>
    obtain ⟨token, -, rfl⟩ := List.mem_map.1 found
    exact (Worded.undefined _).saysContext _
  | duplicate found =>
    obtain ⟨repeated, -, rfl⟩ := List.mem_map.1 found
    exact (Worded.repeated ..).saysContext _
  | balance found => exact saysContext_checkBalance found

end Messages

/-- A template is read once, without regard to the values, and every part of it is put in its place.
So each code says its template with the given texts in place, and so does each finding of a
report with the texts of its context. -/
theorem messages_have_texts_in_place :
    (∀ template, ∃ parts, (∀ others, ReadsAs template others ↔ others = parts) ∧
      ∀ context, fillTemplate (.ofList context) template =
        parts.flatMap (TemplatePart.filled (givenValue? context))) ∧
    (∀ code wording context message, Worded code wording context message →
      ∀ span, (Diagnostic.ofCode code wording span context).message = message) ∧
    ∀ grammar lines, ∀ issue ∈ (validateLines grammar lines).issues, SaysContext issue := by
  refine ⟨fun template => ⟨readTemplate template, fun others => readsAs_iff, fun context => ?_⟩,
    fun code wording context message => Worded.message_eq, fun grammar lines issue =>
      saysContext_of_mem⟩
  rw [fillTemplate_eq, get?_ofList_eq_givenValue?]

end AsmLint
