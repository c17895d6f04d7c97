import AsmLint.Proofs.ByteReads
import AsmLint.Proofs.DeclaredKeys

/-! Usage rules, compiled by cutting their text at byte offsets. A unit is scanned byte by byte, but
an option list is passed over in one jump, to the first bracket that closes it; the key of a unit is
cut out after its first percent sign. No cut misses a boundary, and every rule text compiles to the
rule that a reading of the characters gives. -/

namespace AsmLint

section Units

def firstUnit (inOptions : Bool) : List Char → List Char × List Char
  | [] => ([], [])
  | c :: rest =>
    if !inOptions && isBlank c then ([], c :: rest)
    else
      let next := firstUnit (if inOptions then c != ']' else opensOptions c rest) rest
      (c :: next.1, next.2)

variable {inOptions : Bool} {text body after : List Char}

theorem firstUnit_append (inOptions : Bool) (text : List Char) :
    (firstUnit inOptions text).1 ++ (firstUnit inOptions text).2 = text := by
  fun_induction firstUnit inOptions text with
  | case1 => rfl
  | case2 => rfl
  | case3 inOptions c rest _ next ih => rw [List.cons_append, ih]

theorem exists_unitPieces (inOptions : Bool) (text : List Char) :
    ∃ pieces, unitPieces inOptions text = (firstUnit inOptions text).1 :: pieces ∧
      (pieces.filter fun piece => !piece.isEmpty) = units (firstUnit inOptions text).2 := by
  fun_induction firstUnit inOptions text with
  | case1 => exact ⟨[], rfl, rfl⟩
  | case2 inOptions c rest separates =>
    obtain ⟨outside, blank⟩ := Bool.and_eq_true_iff.1 separates
    refine ⟨unitPieces false rest, by rw [unitPieces, if_pos separates], ?_⟩
    rw [units, unitPieces, if_pos (by rw [blank]; rfl)]
    rfl
  | case3 inOptions c rest joins next ih =>
    obtain ⟨piece, pieces, whole, later⟩ := unitPieces_cons (Bool.eq_false_iff.2 joins) rest
    obtain ⟨others, found, kept⟩ := ih
    rw [later] at found
    obtain ⟨rfl, rfl⟩ := List.cons.inj found
    exact ⟨pieces, whole, kept⟩

theorem exists_firstUnit_cons {c : Char} (other : ¬ isBlank c = true) (rest : List Char) :
    ∃ inner, (firstUnit false (c :: rest)).1 = c :: inner := by
  rw [firstUnit, if_neg (by simpa using other)]
  exact ⟨_, rfl⟩

theorem units_cons {c : Char} (other : ¬ isBlank c = true) (rest : List Char) :
    units (c :: rest) =
      (firstUnit false (c :: rest)).1 :: units (firstUnit false (c :: rest)).2 := by
  obtain ⟨pieces, split, kept⟩ := exists_unitPieces false (c :: rest)
  obtain ⟨inner, starts⟩ := exists_firstUnit_cons other rest
  have nonempty : (!(firstUnit false (c :: rest)).1.isEmpty) = true := by rw [starts]; rfl
  rw [units, split, List.filter_cons, if_pos nonempty, kept]

theorem units_of_blank {c : Char} (blank : isBlank c = true) (rest : List Char) :
    units (c :: rest) = units rest := by
  rw [units, unitPieces, if_pos (by rw [blank]; rfl)]
  rfl

theorem firstUnit_closed (inside : AllIn (fun c => !(c == ']')) body) (after : List Char) :
    firstUnit false ('%' :: '[' :: (body ++ ']' :: after)) =
      ('%' :: '[' :: (body ++ ']' :: (firstUnit false after).1), (firstUnit false after).2) := by
  have options : firstUnit true (body ++ ']' :: after) =
      (body ++ ']' :: (firstUnit false after).1, (firstUnit false after).2) := by
    induction body with
    | nil => rfl
    | cons c body ih =>
      obtain ⟨first, others⟩ := allIn_cons.1 inside
      rw [List.cons_append, firstUnit, if_neg (by simp), if_pos rfl, bne, first, ih others]
      rfl
  have opened (tail : List Char) : firstUnit false ('%' :: '[' :: tail) =
      ('%' :: '[' :: (firstUnit true tail).1, (firstUnit true tail).2) := rfl
  rw [opened, options]

theorem firstUnit_unclosed (inside : AllIn (fun c => !(c == ']')) body) :
    firstUnit false ('%' :: '[' :: body) = ('%' :: '[' :: body, []) := by
  have options : firstUnit true body = (body, []) := by
    induction body with
    | nil => rfl
    | cons c body ih =>
      obtain ⟨first, others⟩ := allIn_cons.1 inside
      rw [firstUnit, if_neg (by simp), if_pos rfl, bne, first, ih others]
  have opened : firstUnit false ('%' :: '[' :: body) =
      ('%' :: '[' :: (firstUnit true body).1, (firstUnit true body).2) := rfl
  rw [opened, options]

end Units

namespace Bytes

/-- Where the unit ends that bytes at `position` of the text belong to. At an option list the rest
of the text is cut off to look for the bracket, and the scan goes on after it. -/
def unitStop (text : List Char) (position : Nat) (bytes : List Char) : Except Fault Nat :=
  match bytes with
  | [] => .ok position
  | byte :: rest =>
    if isBlank byte then .ok position
    else if opensOptions byte rest then do
      let tail ← cut text ⟨position, utf8Length text⟩
      match find? (· == ']') tail with
      | some close => unitStop text (position + close + 1) (rest.drop close)
      | none => .ok (utf8Length text)
    else unitStop text (position + 1) rest
termination_by bytes.length
decreasing_by all_goals simp; try omega

def unitsFrom (text : List Char) (position : Nat) (bytes : List Char) :
    Except Fault (List (List Char)) :=
  match bytes with
  | [] => .ok []
  | byte :: rest =>
    if isBlank byte then unitsFrom text (position + 1) rest
    else do
      let stop ← unitStop text position (byte :: rest)
      let unit ← cut text ⟨position, stop⟩
      let others ← unitsFrom text stop (rest.drop (stop - position - 1))
      .ok (unit :: others)
termination_by bytes.length
decreasing_by all_goals simp; try omega

def units (text : List Char) : Except Fault (List (List Char)) := unitsFrom text 0 (view text)

section Stops

variable {text before rest : List Char} {c : Char}

theorem opensOptions_view (c : Char) (rest : List Char) :
    opensOptions c (view rest) = opensOptions c rest := by
  have bracket (text : List Char) : (text.head? == some '[') = text.head?.any (· == '[') := by
    cases text <;> rfl
  rw [opensOptions, opensOptions, bracket, bracket, head?_view (isAscii_beq (by decide))]

theorem unitStop_wide {wide : List Char} (allWide : AllIn isWide wide) (position : Nat)
    (bytes : List Char) :
    unitStop text position (wide ++ bytes) = unitStop text (position + wide.length) bytes := by
  induction wide generalizing position with
  | nil => rfl
  | cons byte wide ih =>
    obtain ⟨first, others⟩ := allIn_cons.1 allWide
    have notBlank : ¬ isBlank byte = true := by simp [isAscii_isBlank.outside first]
    have notPercent : (byte == '%') = false := (isAscii_beq (by decide)).outside first
    have notOptions : ¬ opensOptions byte (wide ++ bytes) = true := by
      simp [opensOptions, notPercent]
    rw [List.cons_append, unitStop, if_neg notBlank, if_neg notOptions, ih others, List.length_cons,
      Nat.add_assoc, Nat.add_comm 1]

theorem unitStop_joins (notBlank : ¬ isBlank c = true) (notOptions : ¬ opensOptions c rest = true)
    (position : Nat) :
    unitStop text position (view (c :: rest)) =
      unitStop text (position + c.utf8Size) (view rest) := by
  by_cases small : c.toNat < 128
  · rw [view_cons_of_ascii small, unitStop, if_neg notBlank, opensOptions_view, if_neg notOptions,
      utf8Size_of_ascii small]
  · rw [view_cons, unitStop_wide (allIn_isWide_ofChar (Nat.le_of_not_lt small)), length_ofChar]

section Options

variable {body : List Char} (inside : AllIn (fun c => !(c == ']')) body)

include inside

theorem unitStop_unclosed (split : text = before ++ '%' :: '[' :: body) :
    unitStop text (utf8Length before) (view ('%' :: '[' :: body)) = .ok (utf8Length text) := by
  have absent : AllIn (fun c => !(c == ']')) ('%' :: '[' :: body) :=
    allIn_cons.2 ⟨rfl, allIn_cons.2 ⟨rfl, inside⟩⟩
  have opens : opensOptions '%' ('[' :: view body) = true := rfl
  rw [view_cons_of_ascii (by decide), view_cons_of_ascii (by decide), unitStop, if_neg (by decide),
    if_pos opens, cut_rest split, ok_bind, find?_eq_none absent]

theorem unitStop_closed {after : List Char}
    (split : text = before ++ '%' :: '[' :: (body ++ ']' :: after)) :
    unitStop text (utf8Length before) (view ('%' :: '[' :: (body ++ ']' :: after))) =
      unitStop text (utf8Length (before ++ '%' :: '[' :: (body ++ [']']))) (view after) := by
  have absent : AllIn (fun c => !(c == ']')) ('%' :: '[' :: body) :=
    allIn_cons.2 ⟨rfl, allIn_cons.2 ⟨rfl, inside⟩⟩
  have opens : opensOptions '%' ('[' :: view (body ++ ']' :: after)) = true := rfl
  have found := find?_append absent (c := ']') rfl after
  have list : utf8Length ('%' :: '[' :: body) = utf8Length ('[' :: (body ++ [']'])) := by
    rw [utf8Length, utf8Length, utf8Length, utf8Length_append, Nat.add_comm]
    rfl
  have passed : ('[' :: view (body ++ ']' :: after)).drop (utf8Length ('%' :: '[' :: body)) =
      view after := by
    have bytes : '[' :: view (body ++ ']' :: after) =
        view ('[' :: (body ++ [']'])) ++ view after := by
      rw [← view_append, ← view_cons_of_ascii (by decide)]
      simp
    rw [bytes, list, ← length_view, List.drop_left]
  have stop : utf8Length before + utf8Length ('%' :: '[' :: body) + 1 =
      utf8Length (before ++ ('%' :: '[' :: body ++ [']'])) := by
    rw [utf8Length_append, utf8Length_append, Nat.add_assoc]
    rfl
  rw [List.cons_append, List.cons_append] at found stop
  rw [view_cons_of_ascii (by decide), view_cons_of_ascii (by decide), unitStop, if_neg (by decide),
    if_pos opens, cut_rest split, ok_bind, found]
  dsimp only
  rw [passed, stop]

end Options

theorem unitStop_eq (split : text = before ++ rest) :
    unitStop text (utf8Length before) (view rest) =
      .ok (utf8Length (before ++ (firstUnit false rest).1)) := by
  -- The induction is on the length of what is left, since a jump passes a whole option list.
  induction size : rest.length using Nat.strong_induction_on generalizing before rest with
  | _ n ih =>
    cases rest with
    | nil => rw [view_nil, unitStop, firstUnit, List.append_nil]
    | cons c rest =>
      by_cases blank : isBlank c = true
      · rw [view_cons_of_ascii (isAscii_isBlank c blank), unitStop, if_pos blank, firstUnit,
          if_pos (by rw [blank]; rfl), List.append_nil]
      · by_cases opens : opensOptions c rest = true
        · obtain ⟨percent, bracket⟩ := Bool.and_eq_true_iff.1 opens
          obtain rfl := eq_of_beq percent
          obtain ⟨tail, rfl⟩ := List.head?_eq_some_iff.1 (eq_of_beq bracket)
          obtain ⟨list, inside, stops⟩ := longestRun_takeWhile (fun c => !(c == ']')) tail
          generalize tail.takeWhile (fun c => !(c == ']')) = body at list inside
          cases closed : tail.dropWhile (fun c => !(c == ']')) with
          | nil =>
            rw [closed, List.append_nil] at list
            subst list
            rw [unitStop_unclosed inside split, firstUnit_unclosed inside, split]
          | cons d after =>
            rw [closed] at list stops
            obtain rfl : d = ']' := by simpa using startsOutside_cons.1 stops
            subst list
            have shorter : after.length < n := by
              simp only [← size, List.length_cons, List.length_append]
              omega
            have next := @ih after.length shorter
              (before ++ '%' :: '[' :: (body ++ [']'])) after (by simp [split]) rfl
            rw [unitStop_closed inside split, next, firstUnit_closed inside]
            simp
        · have shorter : rest.length < n := by
            rw [← size, List.length_cons]
            omega
          have next := @ih rest.length shorter (before ++ [c]) rest
            (by rw [split, List.append_assoc, List.singleton_append]) rfl
          rw [utf8Length_append before, utf8Length, utf8Length, Nat.add_zero, List.append_assoc,
            List.singleton_append] at next
          have closed : opensOptions c rest = false := Bool.eq_false_iff.2 opens
          rw [unitStop_joins blank opens, next, firstUnit, if_neg (by simpa using blank), closed]
          rfl

end Stops

theorem drop_view_append {unit tail more : List Char} {byte : Char}
    (bytes : view (unit ++ tail) = byte :: more) (nonempty : unit ≠ []) :
    more.drop (utf8Length unit - 1) = view tail := by
  have after : (byte :: more).drop (utf8Length unit) = view tail := by
    rw [← bytes, view_append, ← length_view, List.drop_left]
  obtain ⟨below, same⟩ := Nat.exists_eq_succ_of_ne_zero (mt utf8Length_eq_zero_iff.1 nonempty)
  rw [← after, same]
  rfl

theorem unitsFrom_eq {text before rest : List Char} (split : text = before ++ rest) :
    unitsFrom text (utf8Length before) (view rest) = .ok (AsmLint.units rest) := by
  induction size : rest.length using Nat.strong_induction_on generalizing before rest with
  | _ n ih =>
    cases rest with
    | nil =>
      rw [view_nil, unitsFrom]
      rfl
    | cons c rest =>
      by_cases blank : isBlank c = true
      · have small := isAscii_isBlank c blank
        have shorter : rest.length < n := by
          rw [← size, List.length_cons]
          omega
        have next := @ih rest.length shorter (before ++ [c]) rest
          (by rw [split, List.append_assoc, List.singleton_append]) rfl
        rw [utf8Length_append, utf8Length, utf8Length, utf8Size_of_ascii small] at next
        rw [view_cons_of_ascii small, unitsFrom, if_pos blank, next, units_of_blank blank]
      · obtain ⟨byte, more, bytes, notBlank⟩ :=
          exists_view_cons isAscii_isBlank (Bool.eq_false_iff.2 blank) rest
        obtain ⟨inner, starts⟩ := exists_firstUnit_cons blank rest
        have stop := unitStop_eq split
        have parts := firstUnit_append false (c :: rest)
        rw [units_cons blank]
        generalize (firstUnit false (c :: rest)).1 = unit at *
        generalize (firstUnit false (c :: rest)).2 = tail at *
        have taken : cut text ⟨utf8Length before, utf8Length (before ++ unit)⟩ = .ok unit := by
          rw [← parts] at split
          exact cut_of_append split rfl (utf8Length_append before unit)
        have passed :
            more.drop (utf8Length (before ++ unit) - utf8Length before - 1) = view tail := by
          rw [utf8Length_append, Nat.add_sub_cancel_left]
          exact drop_view_append (parts ▸ bytes) (starts ▸ List.cons_ne_nil c inner)
        have shorter : tail.length < n := by
          have length := congrArg List.length parts
          rw [starts, List.length_append, List.length_cons] at length
          omega
        have next := @ih tail.length shorter (before ++ unit) tail
          (by rw [split, ← parts, List.append_assoc]) rfl
        rw [bytes, unitsFrom, if_neg (Bool.eq_false_iff.1 notBlank), ← bytes, stop, ok_bind, taken,
          ok_bind, passed, next, ok_bind]

theorem units_eq (text : List Char) : units text = .ok (AsmLint.units text) :=
  unitsFrom_eq (List.nil_append text).symm

section Compile

def placeholderKey (text : List Char) : Except Fault (List Char) :=
  cut text ⟨0, ((view text).takeWhile isWordChar).length⟩

def slotAtSign (legend : Legend) (policy : OperandPolicy) (unit : List Char) (percent : Nat) :
    Except Fault Slot := do
  let tail ← cut unit ⟨percent + 1, utf8Length unit⟩
  let key ← placeholderKey tail
  let entry := legend.get? (String.ofList key)
  if key.isEmpty then .ok (.literal (String.ofList (upper unit)))
  else if percent == 0 && utf8Length key + 1 == utf8Length unit then .ok (.ofKey key entry)
  else if policy.compositePatterns then do
    let before ← cut unit ⟨0, percent⟩
    let after ← cut unit ⟨percent + 1 + utf8Length key, utf8Length unit⟩
    .ok (.pattern (String.ofList unit) before after (.ofEntry key entry))
  else .ok (.any (String.ofList unit) false)

def slotOfUnit (legend : Legend) (policy : OperandPolicy) (unit : List Char) : Except Fault Slot :=
  match optionBody? unit with
  | some body => .ok (.options (optionSet body))
  | none =>
    match find? (· == '%') unit with
    | none => .ok (.literal (String.ofList (upper unit)))
    | some percent => slotAtSign legend policy unit percent

def compileRule (legend : Legend) (policy : OperandPolicy) (text : String) :
    Except Fault (Except RuleError Rule) := do
  match ← units text.toList with
  | [] => .ok (.error .empty)
  | head :: rest => do
    let slots ← (operandUnits rest).mapM (slotOfUnit legend policy)
    .ok (.ok ⟨text, String.ofList (upper head), slots⟩)

theorem placeholderKey_eq (text : List Char) :
    placeholderKey text = .ok (text.takeWhile isWordChar) := by
  have run := longestRun_takeWhile isWordChar text
  have split : text = [] ++ (text.takeWhile isWordChar ++ text.dropWhile isWordChar) := run.split
  rw [placeholderKey, takeWhile_view isAscii_isWordChar]
  apply cut_of_append split rfl
  rw [utf8Length_of_ascii isAscii_isWordChar run.inside]
  exact (Nat.zero_add _).symm

theorem alone_iff {unit before key after : List Char}
    (split : unit = before ++ '%' :: (key ++ after)) :
    (utf8Length before == 0 && utf8Length key + 1 == utf8Length unit) =
      (before.isEmpty && after.isEmpty) := by
  have length :
      utf8Length unit = utf8Length before + (1 + (utf8Length key + utf8Length after)) := by
    rw [split, utf8Length_append, utf8Length, utf8Length_append]
    rfl
  rw [Bool.eq_iff_iff, Bool.and_eq_true, Bool.and_eq_true, beq_iff_eq, beq_iff_eq,
    List.isEmpty_iff, List.isEmpty_iff, ← utf8Length_eq_zero_iff, ← utf8Length_eq_zero_iff, length]
  omega

theorem slotAtSign_eq (legend : Legend) (policy : OperandPolicy) {unit before tail : List Char}
    (split : unit = before ++ '%' :: tail) (plain : AllIn (· != '%') before)
    (noOptions : optionBody? unit = none) :
    slotAtSign legend policy unit (utf8Length before) = .ok (Slot.ofUnit legend policy unit) := by
  have run := longestRun_takeWhile isWordChar tail
  have sign : LongestRun (· != '%') unit before ('%' :: tail) :=
    ⟨split, plain, startsOutside_cons.2 (by decide)⟩
  have afterSign : cut unit ⟨utf8Length before + 1, utf8Length unit⟩ = .ok tail := by
    have whole : unit = before ++ ['%'] ++ tail := by
      rw [split, List.append_assoc, List.singleton_append]
    have found := cut_rest whole
    rw [utf8Length_append] at found
    exact found
  rw [slotAtSign, afterSign, ok_bind, placeholderKey_eq, ok_bind, Slot.ofUnit, noOptions]
  dsimp only
  by_cases noKey : tail.takeWhile isWordChar = []
  · have starts : ¬ tail.head?.any isWordChar = true := mt takeWhile_ne_nil_iff.2 (not_not.2 noKey)
    have unkeyed : KeyedUnit.of? unit = none := by
      rw [KeyedUnit.of?, sign.dropWhile_eq]
      exact if_neg starts
    rw [noKey, unkeyed]
    rfl
  · have keyed : KeyedUnit.of? unit =
        some ⟨before, tail.takeWhile isWordChar, tail.dropWhile isWordChar⟩ := by
      apply keyedUnit_of?_iff.2
      refine ⟨?_, ?_, noKey⟩
      · rw [← run.split]
        exact sign
      · rw [← run.split]
        exact run
    rw [keyed]
    generalize tail.takeWhile isWordChar = key at *
    generalize tail.dropWhile isWordChar = after at *
    have parts : unit = before ++ '%' :: (key ++ after) := by rw [split, run.split]
    have inFront : cut unit ⟨0, utf8Length before⟩ = .ok before :=
      cut_of_append (split.trans (List.nil_append _).symm) rfl (Nat.zero_add _).symm
    have afterKey : cut unit ⟨utf8Length before + 1 + utf8Length key, utf8Length unit⟩ =
        .ok after := by
      have whole : unit = before ++ ['%'] ++ key ++ after := by simp [parts]
      have found := cut_rest whole
      rw [utf8Length_append, utf8Length_append] at found
      exact found
    have hasKey : ¬ key.isEmpty = true := by simpa using noKey
    rw [if_neg hasKey, alone_iff parts, inFront, ok_bind, afterKey, ok_bind]
    dsimp only
    split
    · rfl
    · split <;> rfl

theorem slotOfUnit_eq (legend : Legend) (policy : OperandPolicy) (unit : List Char) :
    slotOfUnit legend policy unit = .ok (Slot.ofUnit legend policy unit) := by
  rw [slotOfUnit]
  cases options : optionBody? unit with
  | some body => rw [Slot.ofUnit, options]
  | none =>
    dsimp only
    obtain ⟨split, outside, stops⟩ := longestRun_takeWhile (· != '%') unit
    generalize unit.takeWhile (· != '%') = before at *
    cases rest : unit.dropWhile (· != '%') with
    | nil =>
      rw [rest, List.append_nil] at split
      subst split
      rw [find?_eq_none outside, Slot.ofUnit, options, KeyedUnit.of?, rest]
    | cons sign tail =>
      rw [rest] at split stops
      obtain rfl : sign = '%' := by simpa using startsOutside_cons.1 stops
      have found := find?_append outside (c := '%') rfl tail
      rw [← split] at found
      rw [found]
      exact slotAtSign_eq legend policy split outside options

theorem compileRule_eq (legend : Legend) (policy : OperandPolicy) (text : String) :
    compileRule legend policy text = .ok (Rule.compile legend policy text) := by
  rw [compileRule, units_eq, ok_bind, Rule.compile]
  cases AsmLint.units text.toList with
  | nil => rfl
  | cons head rest =>
    dsimp only
    rw [mapM_ok fun unit _ => slotOfUnit_eq legend policy unit, ok_bind]

def compileUsage (legend : Legend) (policy : OperandPolicy) (entry : String × List String) :
    Except Fault Usage := do
  let rules ← entry.2.mapM (compileRule legend policy)
  .ok ⟨upperName entry.1, rules⟩

def compileTable (table : RuleTable) (policy : OperandPolicy) : Except Fault Grammar := do
  let entries := table.directives.entries ++ table.instructions.entries
  let usages ← entries.mapM (compileUsage table.legend policy)
  .ok { Grammar.ofTable table policy with
    usages := Dict.ofList (usages.map fun usage => (usage.mnemonic, usage))
    mnemonics := NameSet.ofList (usages.flatMap fun usage => usage.mnemonic :: usage.heads) }

theorem compileUsage_eq (legend : Legend) (policy : OperandPolicy) (entry : String × List String) :
    compileUsage legend policy entry = .ok (Usage.compile legend policy entry) := by
  rw [compileUsage, mapM_ok fun text _ => compileRule_eq legend policy text, ok_bind, Usage.compile]

theorem compileTable_eq (table : RuleTable) (policy : OperandPolicy) :
    compileTable table policy = .ok (Grammar.ofTable table policy) := by
  rw [compileTable]
  dsimp only
  rw [mapM_ok fun entry _ => compileUsage_eq table.legend policy entry, ok_bind]
  rfl

end Compile

end Bytes

end AsmLint
