import AsmLint.Proofs.Findings
import AsmLint.Proofs.SymbolTable
import Mathlib.Data.Finset.Max
import Mathlib.Order.Bounds.Basic

/-! Balance of blocks. The depth of macros forgets an end that has no start before it, so it is no
difference of two counts. It is the greatest excess of starts over ends among the end parts of the
document, and it is the number of macros that stay open when every end closes the nearest macro that
is open before it. What is reported about blocks follows from these counts. -/

namespace AsmLint

def LineLedBy (keyword : List Char) (lines : List (List Char)) (line : Nat) : Prop :=
  ∃ raw, lines[line]? = some raw ∧ LedBy keyword (codePart raw)

instance (keyword : List Char) (lines : List (List Char)) (line : Nat) :
    Decidable (LineLedBy keyword lines line) :=
  decidable_of_iff (lines[line]?.any (fun raw => LedBy keyword (codePart raw)) = true) <| by
    simp [LineLedBy, Option.any_eq_true]

def MacroStartsAt (lines : List (List Char)) (line : Nat) : Prop :=
  LineLedBy "MACRO".toList lines line

def MacroEndsAt (lines : List (List Char)) (line : Nat) : Prop := LineLedBy "ENDM".toList lines line

instance (lines : List (List Char)) (line : Nat) : Decidable (MacroStartsAt lines line) :=
  inferInstanceAs (Decidable (LineLedBy ..))

instance (lines : List (List Char)) (line : Nat) : Decidable (MacroEndsAt lines line) :=
  inferInstanceAs (Decidable (LineLedBy ..))

/-- The lines before `line` that start a macro which no line before `line` closes. For every line
`closes` tells where the macro starts that it closes. -/
def openMacros (lines : List (List Char)) (closes : Nat → Option Nat) (line : Nat) : Finset Nat :=
  (Finset.range line).filter fun start =>
    MacroStartsAt lines start ∧ ∀ earlier < line, closes earlier ≠ some start

/-- Every end of a macro closes the nearest macro that is open before it, if there is one, and no
other line closes any. -/
def ClosesNearest (lines : List (List Char)) (closes : Nat → Option Nat) : Prop :=
  ∀ line start, closes line = some start ↔ MacroEndsAt lines line ∧
    IsGreatest (openMacros lines closes line : Set Nat) start

theorem StartsWord.head?_upper {word text : List Char} (starts : StartsWord word text)
    (nonempty : word ≠ []) : (upper text).head? = (upper word).head? := by
  obtain ⟨written, rest, rfl, same, -⟩ := starts
  cases written with
  | nil => exact absurd (List.map_eq_nil_iff.1 same.symm) nonempty
  | cons c written => rw [← same]; rfl

theorem not_macroEndsAt {lines : List (List Char)} {line : Nat}
    (starts : MacroStartsAt lines line) : ¬ MacroEndsAt lines line := by
  intro ends
  obtain ⟨raw, here, indent, text, blanks, first⟩ := starts
  obtain ⟨_, same, _, _, blanks', second⟩ := ends
  obtain rfl := Option.some.inj (here.symm.trans same)
  rw [← blanks'.dropWhile_eq, blanks.dropWhile_eq] at second
  have heads := (first.head?_upper (by decide)).symm.trans (second.head?_upper (by decide))
  exact absurd heads (by decide)

section Matching

variable {lines : List (List Char)} {closes : Nat → Option Nat} {line start : Nat}

theorem mem_openMacros :
    start ∈ openMacros lines closes line ↔
      start < line ∧ MacroStartsAt lines start ∧
        ∀ earlier < line, closes earlier ≠ some start := by
  rw [openMacros, Finset.mem_filter, Finset.mem_range]

theorem mem_openMacros_succ (backward : ∀ line start, closes line = some start → start < line) :
    start ∈ openMacros lines closes (line + 1) ↔
      (start ∈ openMacros lines closes line ∧ closes line ≠ some start) ∨
        (start = line ∧ MacroStartsAt lines line) := by
  rw [mem_openMacros, mem_openMacros]
  constructor
  · rintro ⟨before, starts, notClosed⟩
    rcases Nat.lt_succ_iff_lt_or_eq.1 before with before | rfl
    · exact .inl ⟨⟨before, starts, fun earlier less => notClosed earlier (by omega)⟩,
        notClosed line (by omega)⟩
    · exact .inr ⟨rfl, starts⟩
  · rintro (⟨⟨before, starts, notClosed⟩, kept⟩ | ⟨rfl, starts⟩)
    · refine ⟨by omega, starts, fun earlier less => ?_⟩
      rcases Nat.lt_succ_iff_lt_or_eq.1 less with less | rfl
      · exact notClosed earlier less
      · exact kept
    · refine ⟨by omega, starts, fun earlier less closed => ?_⟩
      have := backward earlier start closed
      omega

namespace ClosesNearest

variable (nearest : ClosesNearest lines closes)
include nearest

theorem backward (line start : Nat) (closed : closes line = some start) : start < line :=
  (mem_openMacros.1 ((nearest line start).1 closed).2.1).1

theorem eq_none (notEnd : ¬ MacroEndsAt lines line) : closes line = none := by
  apply Option.eq_none_iff_forall_ne_some.2
  intro start closed
  exact notEnd ((nearest line start).1 closed).1

theorem openMacros_of_start (starts : MacroStartsAt lines line) :
    openMacros lines closes (line + 1) = insert line (openMacros lines closes line) := by
  have none := nearest.eq_none (not_macroEndsAt starts)
  ext start
  rw [mem_openMacros_succ nearest.backward, Finset.mem_insert, none]
  simp [starts, or_comm]

theorem card_of_end (ends : MacroEndsAt lines line) :
    (openMacros lines closes (line + 1)).card = (openMacros lines closes line).card - 1 := by
  have notStart : ¬ MacroStartsAt lines line := fun starts =>
    not_macroEndsAt starts ends
  have step (start : Nat) : start ∈ openMacros lines closes (line + 1) ↔
      start ∈ openMacros lines closes line ∧ closes line ≠ some start := by
    simp [mem_openMacros_succ nearest.backward, notStart]
  rcases (openMacros lines closes line).eq_empty_or_nonempty with empty | nonempty
  · have still : openMacros lines closes (line + 1) = ∅ := by
      ext start
      rw [step, empty]
      simp
    rw [still, empty]
    rfl
  · obtain ⟨start, greatest⟩ : ∃ start, IsGreatest (openMacros lines closes line : Set Nat) start :=
      ⟨_, Finset.isGreatest_max' _ nonempty⟩
    have closed := (nearest line start).2 ⟨ends, greatest⟩
    have erased : openMacros lines closes (line + 1) =
        (openMacros lines closes line).erase start := by
      ext other
      rw [step, closed, Finset.mem_erase, and_comm, Ne, Option.some.injEq, eq_comm]
    rw [erased, Finset.card_erase_of_mem greatest.1]

theorem openMacros_of_other (notStart : ¬ MacroStartsAt lines line)
    (notEnd : ¬ MacroEndsAt lines line) :
    openMacros lines closes (line + 1) = openMacros lines closes line := by
  have none := nearest.eq_none notEnd
  ext start
  simp [mem_openMacros_succ nearest.backward, none, notStart]

theorem card_succ {raw : List Char} (here : lines[line]? = some raw) :
    (openMacros lines closes (line + 1)).card =
      Nesting.observeMacro (openMacros lines closes line).card (codePart raw) := by
  have led (keyword : List Char) :
      LineLedBy keyword lines line ↔ startsWithKeyword keyword (codePart raw) = true := by
    simp [startsWithKeyword_iff, LineLedBy, here]
  have opens : MacroStartsAt lines line ↔ Nesting.opensMacro (codePart raw) = true :=
    led _
  have ends : MacroEndsAt lines line ↔ Nesting.closesMacro (codePart raw) = true :=
    led _
  rw [Nesting.observeMacro]
  by_cases isStart : MacroStartsAt lines line
  · have notEnd := not_macroEndsAt isStart
    have new : line ∉ openMacros lines closes line := fun member =>
      Nat.lt_irrefl line (mem_openMacros.1 member).1
    rw [nearest.openMacros_of_start isStart, Finset.card_insert_of_notMem new,
      if_pos (opens.1 isStart), if_neg (mt ends.2 notEnd)]
  · rw [if_neg (mt opens.2 isStart)]
    by_cases isEnd : MacroEndsAt lines line
    · rw [nearest.card_of_end isEnd, if_pos (ends.1 isEnd)]
    · rw [nearest.openMacros_of_other isStart isEnd, if_neg (mt ends.2 isEnd)]

theorem card_openMacros (bound : line ≤ lines.length) :
    (openMacros lines closes line).card =
      (Nesting.zero.after (lines.take line)).macroDepth := by
  induction line with
  | zero => rfl
  | succ line ih =>
    have here : lines[line]? = some lines[line] := List.getElem?_eq_getElem bound
    rw [nearest.card_succ here, ih (by omega), List.take_add_one, here, Nesting.after_append]
    rfl

end ClosesNearest

def macroStack (lines : List (List Char)) : (line : Nat) → List Nat
  | 0 => []
  | line + 1 =>
    if MacroStartsAt lines line then line :: macroStack lines line
    else if MacroEndsAt lines line then (macroStack lines line).tail
    else macroStack lines line

def closedMacro (lines : List (List Char)) (line : Nat) : Option Nat :=
  if MacroEndsAt lines line then (macroStack lines line).head? else none

theorem pairwise_macroStack (lines : List (List Char)) (line : Nat) :
    (macroStack lines line).Pairwise (· > ·) ∧ ∀ start ∈ macroStack lines line, start < line := by
  induction line with
  | zero => simp [macroStack]
  | succ line ih =>
    obtain ⟨falling, below⟩ := ih
    rw [macroStack]
    split
    · refine ⟨List.pairwise_cons.2 ⟨below, falling⟩, fun start member => ?_⟩
      rcases List.mem_cons.1 member with rfl | member
      · omega
      · have := below start member
        omega
    · split
      · refine ⟨falling.tail, fun start member => ?_⟩
        have := below start (List.mem_of_mem_tail member)
        omega
      · refine ⟨falling, fun start member => ?_⟩
        have := below start member
        omega

theorem closedMacro_backward (line start : Nat) (closed : closedMacro lines line = some start) :
    start < line := by
  rw [closedMacro, Option.ite_none_right_eq_some] at closed
  exact (pairwise_macroStack lines line).2 start (List.mem_of_head? closed.2)

theorem mem_macroStack_iff :
    start ∈ macroStack lines line ↔ start ∈ openMacros lines (closedMacro lines) line := by
  induction line with
  | zero => simp [macroStack, openMacros]
  | succ line ih =>
    rw [mem_openMacros_succ closedMacro_backward, ← ih, macroStack, closedMacro]
    by_cases isStart : MacroStartsAt lines line
    · simp [isStart, not_macroEndsAt isStart, or_comm]
    · by_cases isEnd : MacroEndsAt lines line
      · have falling := (pairwise_macroStack lines line).1
        rw [if_neg isStart, if_pos isEnd, if_pos isEnd]
        generalize macroStack lines line = stack at falling ⊢
        cases stack with
        | nil => simp [isStart]
        | cons top below =>
          have less := (List.pairwise_cons.1 falling).1
          simp only [isStart, List.tail_cons, List.mem_cons, List.head?_cons]
          grind
      · simp [isStart, isEnd]

theorem closesNearest_closedMacro (lines : List (List Char)) :
    ClosesNearest lines (closedMacro lines) := by
  intro line start
  rw [closedMacro, Option.ite_none_right_eq_some]
  apply and_congr_right
  intro _
  have falling := (pairwise_macroStack lines line).1
  have same : (openMacros lines (closedMacro lines) line : Set Nat) =
      {other | other ∈ macroStack lines line} := by
    ext other
    exact mem_macroStack_iff.symm
  rw [same]
  generalize macroStack lines line = stack at falling ⊢
  cases stack with
  | nil => simp [IsGreatest]
  | cons top below =>
    have less := (List.pairwise_cons.1 falling).1
    have greatest : IsGreatest {other | other ∈ top :: below} top := by
      refine ⟨List.mem_cons_self, fun other member => ?_⟩
      rcases List.mem_cons.1 member with rfl | member
      · exact Nat.le_refl _
      · exact Nat.le_of_lt (less other member)
    constructor
    · intro first
      rwa [← Option.some.inj first]
    · intro other
      rw [greatest.unique other]
      rfl

theorem ClosesNearest.unique {other : Nat → Option Nat} (nearest : ClosesNearest lines closes)
    (nearest' : ClosesNearest lines other) : closes = other := by
  funext line
  induction line using Nat.strongRecOn with
  | ind line ih =>
    have same : openMacros lines closes line = openMacros lines other line := by
      apply Finset.filter_congr
      intro start _
      apply and_congr_right
      intro _
      apply forall₂_congr
      intro earlier less
      rw [ih earlier less]
    ext start
    rw [nearest line start, nearest' line start, same]

end Matching

def macroExcess (lines : List (List Char)) : Int := macroStarts lines - macroEnds lines

theorem exists_macroExcess_eq (lines : List (List Char)) :
    ∃ suffix, suffix <:+ lines ∧ macroExcess suffix = (Nesting.zero.after lines).macroDepth := by
  have bound := fun depth => Nesting.after_macroDepth_le_iff Nesting.zero depth lines
  cases depth : (Nesting.zero.after lines).macroDepth with
  | zero => exact ⟨[], List.nil_suffix, rfl⟩
  | succ below =>
    rw [depth] at bound
    have start : Nesting.zero.macroDepth = 0 := rfl
    have upTo := ((bound (below + 1)).1 (Nat.le_refl _)).2
    -- One less is no bound, so some end part exceeds it.
    have exceeded := mt (bound below).2 (by omega)
    obtain ⟨suffix, isSuffix, more⟩ :
        ∃ suffix, suffix <:+ lines ∧ below + macroEnds suffix < macroStarts suffix := by
      apply Classical.byContradiction
      intro none
      have within : ∀ suffix, suffix <:+ lines → macroStarts suffix ≤ below + macroEnds suffix :=
        fun suffix isSuffix => Nat.le_of_not_lt fun more => none ⟨suffix, isSuffix, more⟩
      have whole := within lines (List.suffix_refl lines)
      exact exceeded ⟨by omega, within⟩
    have least := upTo suffix isSuffix
    refine ⟨suffix, isSuffix, ?_⟩
    rw [macroExcess]
    omega

theorem isGreatest_macroDepth (lines : List (List Char)) :
    IsGreatest {excess | ∃ suffix, suffix <:+ lines ∧ macroExcess suffix = excess}
      ((Nesting.zero.after lines).macroDepth : Int) := by
  refine ⟨exists_macroExcess_eq lines, ?_⟩
  rintro excess ⟨suffix, isSuffix, rfl⟩
  have bound := Nesting.after_macroDepth_le_iff .zero (Nesting.zero.after lines).macroDepth lines
  have upTo := (bound.1 (Nat.le_refl _)).2 suffix isSuffix
  rw [macroExcess]
  omega

/-- What the issues say about one kind of block: a single finding that gives the depth where the
blocks are not balanced, and nothing otherwise. -/
structure DepthReported (code : Code) (depth : String) (unbalanced : Prop)
    (issues : List Diagnostic) : Prop where
  once : unbalanced →
    ∃ finding, findingsOf code issues = [finding] ∧ finding.value? "depth" = some depth
  silent : ¬ unbalanced → findingsOf code issues = []

theorem toString_eq_intText (depth : Int) : toString depth = intText depth := by
  cases depth <;> rfl

theorem depthReported_braces (lines : List (List Char)) :
    DepthReported .unbalancedBlock (toString (Nesting.zero.after lines).braceDepth)
      (openBraces lines ≠ closeBraces lines) (checkBalance (Nesting.zero.after lines)) := by
  have balanced := Nesting.after_braceDepth_eq_zero_iff lines
  refine ⟨fun unbalanced => ?_, fun notUnbalanced => ?_⟩
  · rw [findingsOf_unbalancedBlock_checkBalance, checkBraces, if_neg (mt balanced.1 unbalanced)]
    refine ⟨_, rfl, ?_⟩
    rw [Diagnostic.value?_ofCode, toString_eq_intText]
    rfl
  · rw [findingsOf_unbalancedBlock_checkBalance, checkBraces,
      if_pos (balanced.2 (Decidable.not_not.1 notUnbalanced))]

theorem depthReported_macros (lines : List (List Char)) :
    DepthReported .unterminatedMacro (toString (Nesting.zero.after lines).macroDepth)
      (∃ suffix, suffix <:+ lines ∧ macroEnds suffix < macroStarts suffix)
      (checkBalance (Nesting.zero.after lines)) := by
  have balanced : (Nesting.zero.after lines).macroDepth = 0 ↔
      ¬ ∃ suffix, suffix <:+ lines ∧ macroEnds suffix < macroStarts suffix := by
    rw [Nesting.after_macroDepth_eq_zero_iff]
    simp only [not_exists, not_and, Nat.not_lt]
  refine ⟨fun unbalanced => ?_, fun notUnbalanced => ?_⟩
  · rw [findingsOf_unterminatedMacro_checkBalance, checkMacros,
      if_neg fun zero => balanced.1 zero unbalanced]
    refine ⟨_, rfl, ?_⟩
    rw [Diagnostic.value?_ofCode]
    rfl
  · rw [findingsOf_unterminatedMacro_checkBalance, checkMacros, if_pos (balanced.2 notUnbalanced)]

theorem DepthReported.validateLines {code : Code} {depth : String} {unbalanced : Prop}
    {lines : List (List Char)} (blockWise : code ∈ [Code.unbalancedBlock, .unterminatedMacro])
    (reported : DepthReported code depth unbalanced (checkBalance (Nesting.zero.after lines)))
    (grammar : Grammar) :
    DepthReported code depth unbalanced (validateLines grammar lines).issues := by
  have same := findingsOf_blockWise blockWise grammar lines
  rw [(SymbolTable.describes_build grammar lines).nesting] at same
  exact ⟨same ▸ reported.once, same ▸ reported.silent⟩

/-- The nesting of blocks in closed form, and what is reported about it. The brace depth is a
difference of counts. The macro depth is the greatest excess of starts over ends in an end part of
the document, and the number of macros left open when every end closes the nearest open one; on the
way through the lines it never exceeds the number of macros that they start. -/
theorem block_balance_in_closed_form (grammar : Grammar) (lines : List (List Char)) :
    (Nesting.zero.after lines).braceDepth = (openBraces lines : Int) - closeBraces lines ∧
    IsGreatest {excess | ∃ suffix, suffix <:+ lines ∧ macroExcess suffix = excess}
      ((Nesting.zero.after lines).macroDepth : Int) ∧
    (∃! closes, ClosesNearest lines closes) ∧
    (∀ closes, ClosesNearest lines closes →
      (openMacros lines closes lines.length).card = (Nesting.zero.after lines).macroDepth) ∧
    (∀ front, front <+: lines → (Nesting.zero.after front).macroDepth ≤ macroStarts lines) ∧
    ∀ issues ∈ [checkBalance (Nesting.zero.after lines), (validateLines grammar lines).issues],
      DepthReported .unbalancedBlock (toString (Nesting.zero.after lines).braceDepth)
        (openBraces lines ≠ closeBraces lines) issues ∧
      DepthReported .unterminatedMacro (toString (Nesting.zero.after lines).macroDepth)
        (∃ suffix, suffix <:+ lines ∧ macroEnds suffix < macroStarts suffix) issues := by
  refine ⟨?_, isGreatest_macroDepth lines, ?_, fun closes nearest => ?_, fun front isFront => ?_,
    ?_⟩
  · rw [Nesting.after_braceDepth]
    simp [Nesting.zero]
  · exact ⟨closedMacro lines, closesNearest_closedMacro lines, fun other nearest =>
      nearest.unique (closesNearest_closedMacro lines)⟩
  · rw [nearest.card_openMacros (Nat.le_refl _), List.take_length]
  · exact (Nesting.after_macroDepth_le front).trans isFront.sublist.countP_le
  · have braces := depthReported_braces lines
    have macros := depthReported_macros lines
    simp only [List.mem_cons, List.not_mem_nil, or_false, forall_eq_or_imp, forall_eq]
    exact ⟨⟨braces, macros⟩, braces.validateLines (by decide) grammar,
      macros.validateLines (by decide) grammar⟩

/-- An end before the first start is forgotten, so as many ends as starts need not balance. -/
example : (Nesting.zero.after ["ENDM".toList, "macro m".toList]).macroDepth = 1 := by decide

end AsmLint
