import AsmLint.Proofs.Definitions

/-! Nesting in closed form. The brace depth is a difference of two counts. The macro depth forgets a
close without an open, so it is no such difference: it stays within a bound exactly when no end part
of the document opens more macros than it closes by more than that bound. -/

namespace AsmLint

def codeOf (lines : List (List Char)) : List Char := lines.flatMap codePart

def openBraces (lines : List (List Char)) : Nat := (codeOf lines).count '\x7b'

def closeBraces (lines : List (List Char)) : Nat := (codeOf lines).count '\x7d'

/-- More braces are open than closed once the line has been read. -/
def InBlock (lines : List (List Char)) (line : Nat) : Prop :=
  closeBraces (lines.take (line + 1)) < openBraces (lines.take (line + 1))

instance (lines : List (List Char)) (line : Nat) : Decidable (InBlock lines line) :=
  inferInstanceAs (Decidable (_ < _))

def LedBy (keyword code : List Char) : Prop :=
  ∃ indent text, LongestRun isBlank code indent text ∧ StartsWord keyword text

theorem startsWithKeyword_iff {keyword code : List Char} :
    startsWithKeyword keyword code = true ↔ LedBy keyword code := by
  simp only [startsWithKeyword, startsWithWord_iff, LedBy, longestRun_iff]
  constructor
  · intro starts
    exact ⟨_, _, ⟨rfl, rfl⟩, starts⟩
  · rintro ⟨_, _, ⟨rfl, rfl⟩, starts⟩
    exact starts

instance (keyword code : List Char) : Decidable (LedBy keyword code) :=
  decidable_of_iff _ startsWithKeyword_iff

theorem decide_ledBy (keyword code : List Char) :
    decide (LedBy keyword code) = startsWithKeyword keyword code := by
  rw [Bool.eq_iff_iff, decide_eq_true_iff, startsWithKeyword_iff]

def macroStarts (lines : List (List Char)) : Nat :=
  lines.countP fun raw => LedBy "MACRO".toList (codePart raw)

def macroEnds (lines : List (List Char)) : Nat :=
  lines.countP fun raw => LedBy "ENDM".toList (codePart raw)

namespace Nesting

def after (start : Nesting) (lines : List (List Char)) : Nesting :=
  lines.foldl (fun nesting raw => nesting.observe (codePart raw)) start

theorem after_append (start : Nesting) (lines more : List (List Char)) :
    start.after (lines ++ more) = (start.after lines).after more := by
  simp [after]

theorem foldl_observeBrace (depth : Int) (code : List Char) :
    code.foldl observeBrace depth = depth + code.count '\x7b' - code.count '\x7d' := by
  induction code generalizing depth with
  | nil => simp
  | cons c rest ih =>
    rw [List.foldl_cons, ih, observeBrace]
    by_cases opens : c = '\x7b'
    · subst opens
      simp
      omega
    · by_cases closes : c = '\x7d'
      · subst closes
        simp
        omega
      · simp [opens, closes]

theorem after_braceDepth (start : Nesting) (lines : List (List Char)) :
    (start.after lines).braceDepth =
      start.braceDepth + openBraces lines - closeBraces lines := by
  induction lines generalizing start with
  | nil => simp [after, openBraces, closeBraces, codeOf]
  | cons raw rest ih =>
    have step : (start.observe (codePart raw)).braceDepth =
        start.braceDepth + (codePart raw).count '\x7b' - (codePart raw).count '\x7d' :=
      foldl_observeBrace start.braceDepth (codePart raw)
    have later := ih (start.observe (codePart raw))
    simp only [after, List.foldl_cons, openBraces, closeBraces, codeOf, List.flatMap_cons,
      List.count_append] at later ⊢
    omega

/-- One line: a close takes back one open, of the line itself or of the lines before it. -/
theorem observeMacro_eq (depth : Nat) (raw : List Char) :
    observeMacro depth (codePart raw) = depth + macroStarts [raw] - macroEnds [raw] := by
  simp only [observeMacro, opensMacro, closesMacro, macroStarts, macroEnds, decide_ledBy,
    List.countP_singleton]
  by_cases opens : startsWithKeyword "MACRO".toList (codePart raw) = true <;>
    by_cases closes : startsWithKeyword "ENDM".toList (codePart raw) = true <;>
    simp only [opens, closes, ↓reduceIte] <;> rfl

theorem macroStarts_cons (raw : List Char) (rest : List (List Char)) :
    macroStarts (raw :: rest) = macroStarts [raw] + macroStarts rest := by
  rw [macroStarts, macroStarts, macroStarts, ← List.countP_append, List.singleton_append]

theorem macroEnds_cons (raw : List Char) (rest : List (List Char)) :
    macroEnds (raw :: rest) = macroEnds [raw] + macroEnds rest := by
  rw [macroEnds, macroEnds, macroEnds, ← List.countP_append, List.singleton_append]

theorem forall_suffix_cons {holds : List (List Char) → Prop} {raw : List Char}
    {rest : List (List Char)} :
    (∀ suffix, suffix <:+ raw :: rest → holds suffix) ↔
      holds (raw :: rest) ∧ ∀ suffix, suffix <:+ rest → holds suffix := by
  simp only [List.suffix_cons_iff]
  grind

theorem after_macroDepth_le_iff (start : Nesting) (bound : Nat) (lines : List (List Char)) :
    (start.after lines).macroDepth ≤ bound ↔
      start.macroDepth + macroStarts lines ≤ bound + macroEnds lines ∧
        ∀ suffix, suffix <:+ lines → macroStarts suffix ≤ bound + macroEnds suffix := by
  induction lines generalizing start with
  | nil => simp [after, macroStarts, macroEnds]
  | cons raw rest ih =>
    have step : (start.observe (codePart raw)).macroDepth = _ :=
      observeMacro_eq start.macroDepth raw
    have later := ih (start.observe (codePart raw))
    rw [step] at later
    have starts := macroStarts_cons raw rest
    have ends := macroEnds_cons raw rest
    rw [after, List.foldl_cons, ← after, later, forall_suffix_cons]
    constructor
    · rintro ⟨total, suffixes⟩
      exact ⟨by omega, by omega, suffixes⟩
    · rintro ⟨total, -, suffixes⟩
      -- Where the close has nothing to take back, the bound is that of the lines after it.
      have whole := suffixes rest (List.suffix_refl rest)
      exact ⟨by omega, suffixes⟩

theorem after_macroDepth_le (lines : List (List Char)) :
    (zero.after lines).macroDepth ≤ macroStarts lines := by
  apply (after_macroDepth_le_iff _ _ _).2
  refine ⟨?_, fun suffix isSuffix => ?_⟩
  · simp only [zero]
    omega
  · have starts : macroStarts suffix ≤ macroStarts lines := isSuffix.sublist.countP_le
    omega

theorem after_macroDepth_eq_zero_iff (lines : List (List Char)) :
    (zero.after lines).macroDepth = 0 ↔
      ∀ suffix, suffix <:+ lines → macroStarts suffix ≤ macroEnds suffix := by
  rw [← Nat.le_zero, after_macroDepth_le_iff]
  constructor
  · rintro ⟨-, suffixes⟩ suffix isSuffix
    have bound := suffixes suffix isSuffix
    omega
  · intro suffixes
    have whole := suffixes lines (List.suffix_refl lines)
    refine ⟨?_, fun suffix isSuffix => ?_⟩
    · simp only [zero]
      omega
    · have bound := suffixes suffix isSuffix
      omega

theorem after_braceDepth_eq_zero_iff (lines : List (List Char)) :
    (zero.after lines).braceDepth = 0 ↔ openBraces lines = closeBraces lines := by
  rw [after_braceDepth]
  simp only [zero]
  omega

theorem inBlock_iff {lines : List (List Char)} {line : Nat} :
    InBlock lines line ↔ 0 < (zero.after (lines.take (line + 1))).braceDepth := by
  rw [after_braceDepth, InBlock]
  simp only [zero]
  omega

end Nesting

end AsmLint
