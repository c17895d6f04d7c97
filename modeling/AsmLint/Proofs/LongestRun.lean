import AsmLint.Source.Statement

/-! Longest runs of a character class. A scanner that takes characters while they are in a class is
fixed by three facts: nothing is lost, all that is taken is in the class, and what follows does not
start in it. The shapes of lines are described by such facts and not by the scanners. -/

namespace AsmLint

/-- The text is empty or its first character is outside the class. -/
def StartsOutside (inClass : Char → Bool) (text : List Char) : Prop :=
  ∀ c ∈ text.head?, inClass c = false

def EndsOutside (inClass : Char → Bool) (text : List Char) : Prop :=
  ∀ c ∈ text.getLast?, inClass c = false

def AllIn (inClass : Char → Bool) (text : List Char) : Prop := ∀ c ∈ text, inClass c = true

instance (inClass : Char → Bool) (text : List Char) : Decidable (AllIn inClass text) :=
  decidable_of_iff (text.all inClass = true) List.all_eq_true

@[simp] theorem startsOutside_nil (inClass : Char → Bool) : StartsOutside inClass [] := by
  simp [StartsOutside]

@[simp] theorem startsOutside_cons {inClass : Char → Bool} {c : Char} {rest : List Char} :
    StartsOutside inClass (c :: rest) ↔ inClass c = false := by
  simp [StartsOutside]

theorem startsOutside_append {inClass : Char → Bool} {text : List Char} (nonempty : text ≠ [])
    (more : List Char) : StartsOutside inClass (text ++ more) ↔ StartsOutside inClass text := by
  cases text with
  | nil => exact absurd rfl nonempty
  | cons c text => rw [List.cons_append, startsOutside_cons, startsOutside_cons]

theorem StartsOutside.mono {inClass smaller : Char → Bool} {text : List Char}
    (outside : StartsOutside inClass text) (within : ∀ c, smaller c = true → inClass c = true) :
    StartsOutside smaller text := by
  intro c first
  have refused := outside c first
  have bound := within c
  grind

theorem startsOutside_iff_any {inClass : Char → Bool} {text : List Char} :
    StartsOutside inClass text ↔ text.head?.any inClass = false := by
  cases text <;> simp

theorem endsOutside_iff_any {inClass : Char → Bool} {text : List Char} :
    EndsOutside inClass text ↔ text.getLast?.any inClass = false := by
  rw [EndsOutside]
  cases text.getLast? <;> simp

instance (inClass : Char → Bool) (text : List Char) : Decidable (StartsOutside inClass text) :=
  decidable_of_iff _ startsOutside_iff_any.symm

instance (inClass : Char → Bool) (text : List Char) : Decidable (EndsOutside inClass text) :=
  decidable_of_iff _ endsOutside_iff_any.symm

@[simp] theorem allIn_nil (inClass : Char → Bool) : AllIn inClass [] := by simp [AllIn]

@[simp] theorem allIn_cons {inClass : Char → Bool} {c : Char} {rest : List Char} :
    AllIn inClass (c :: rest) ↔ inClass c = true ∧ AllIn inClass rest := by
  simp [AllIn]

@[simp] theorem allIn_append {inClass : Char → Bool} {a b : List Char} :
    AllIn inClass (a ++ b) ↔ AllIn inClass a ∧ AllIn inClass b := by
  simp only [AllIn, List.mem_append]
  grind

/-- `body` is the longest start of `text` in the class, and `rest` is what follows it. -/
structure LongestRun (inClass : Char → Bool) (text body rest : List Char) : Prop where
  split : text = body ++ rest
  inside : AllIn inClass body
  stops : StartsOutside inClass rest

theorem longestRun_takeWhile (inClass : Char → Bool) (text : List Char) :
    LongestRun inClass text (text.takeWhile inClass) (text.dropWhile inClass) where
  split := List.takeWhile_append_dropWhile.symm
  inside := List.all_eq_true.1 List.all_takeWhile
  stops c first := by
    have refused := List.head?_dropWhile_not inClass text
    rw [Option.mem_def.1 first] at refused
    simpa using refused

namespace LongestRun

variable {inClass : Char → Bool} {text body rest : List Char}

theorem takeWhile_eq (run : LongestRun inClass text body rest) : text.takeWhile inClass = body := by
  rw [run.split, List.takeWhile_append_of_pos run.inside]
  cases rest with
  | nil => simp
  | cons c rest => simp [startsOutside_cons.1 run.stops]

theorem dropWhile_eq (run : LongestRun inClass text body rest) : text.dropWhile inClass = rest := by
  rw [run.split, List.dropWhile_append_of_pos run.inside]
  cases rest with
  | nil => simp
  | cons c rest => simp [startsOutside_cons.1 run.stops]

theorem extend (run : LongestRun inClass text body rest) {c : Char} (outside : inClass c = false)
    (more : List Char) : LongestRun inClass (text ++ c :: more) body (rest ++ c :: more) where
  split := by rw [run.split, List.append_assoc]
  inside := run.inside
  stops := by
    cases rest with
    | nil => exact startsOutside_cons.2 outside
    | cons d rest => exact startsOutside_cons.2 (startsOutside_cons.1 run.stops)

theorem length_eq_iff (run : LongestRun inClass text body rest) :
    body.length = text.length ↔ AllIn inClass text := by
  have length := congrArg List.length run.split
  rw [List.length_append] at length
  constructor
  · intro same
    have empty : rest = [] := List.length_eq_zero_iff.1 (by omega)
    rw [run.split, empty, List.append_nil]
    exact run.inside
  · intro inside
    have whole : LongestRun inClass text text [] :=
      ⟨(List.append_nil text).symm, inside, startsOutside_nil inClass⟩
    rw [← run.takeWhile_eq, whole.takeWhile_eq]

end LongestRun

theorem longestRun_iff {inClass : Char → Bool} {text body rest : List Char} :
    LongestRun inClass text body rest ↔
      text.takeWhile inClass = body ∧ text.dropWhile inClass = rest := by
  constructor
  · intro run
    exact ⟨run.takeWhile_eq, run.dropWhile_eq⟩
  · rintro ⟨rfl, rfl⟩
    exact longestRun_takeWhile inClass text

theorem dropWhile_reverse_iff {inClass : Char → Bool} {text kept : List Char} :
    (text.reverse.dropWhile inClass).reverse = kept ↔
      ∃ dropped, text = kept ++ dropped ∧ AllIn inClass dropped ∧ EndsOutside inClass kept := by
  rw [List.reverse_eq_iff]
  constructor
  · intro rest
    have run := longestRun_iff.2 ⟨rfl, rest⟩
    refine ⟨(text.reverse.takeWhile inClass).reverse, ?_, ?_, ?_⟩
    · have whole := congrArg List.reverse run.split
      simpa using whole
    · exact fun c member => run.inside c (List.mem_reverse.1 member)
    · exact fun c last => run.stops c (by simpa using last)
  · rintro ⟨dropped, rfl, inside, outside⟩
    have run : LongestRun inClass (kept ++ dropped).reverse dropped.reverse kept.reverse :=
      ⟨List.reverse_append, fun c member => inside c (List.mem_reverse.1 member),
        fun c first => outside c (by simpa using first)⟩
    exact run.dropWhile_eq

theorem trim_eq_nil_iff {text : List Char} : trim text = [] ↔ AllIn isSpace text := by
  have whole : AllIn isSpace text ↔ AllIn isSpace (trimStart text) := by
    have run := longestRun_takeWhile isSpace text
    rw [run.split, allIn_append, ← run.split]
    exact and_iff_right run.inside
  rw [whole, trim, trimEnd, dropWhile_reverse_iff]
  simp [EndsOutside]

theorem trim_eq_iff {text kept : List Char} :
    trim text = kept ↔ ∃ before after, text = before ++ (kept ++ after) ∧ AllIn isSpace before ∧
      AllIn isSpace after ∧ StartsOutside isSpace kept ∧ EndsOutside isSpace kept := by
  constructor
  · intro trimmed
    have run := longestRun_takeWhile isSpace text
    obtain ⟨after, split, space, ends⟩ := dropWhile_reverse_iff.1 trimmed
    refine ⟨_, after, split ▸ run.split, run.inside, space, ?_, ends⟩
    have stops : StartsOutside isSpace (kept ++ after) := split ▸ run.stops
    by_cases empty : kept = []
    · simp [empty]
    · exact (startsOutside_append empty after).1 stops
  · rintro ⟨before, after, rfl, leading, space, starts, ends⟩
    by_cases empty : kept = []
    · subst empty
      exact trim_eq_nil_iff.2 (allIn_append.2 ⟨leading, space⟩)
    · have run : LongestRun isSpace (before ++ (kept ++ after)) before (kept ++ after) :=
        ⟨rfl, leading, (startsOutside_append empty after).2 starts⟩
      rw [trim, trimStart, run.dropWhile_eq, trimEnd, dropWhile_reverse_iff]
      exact ⟨after, rfl, space, ends⟩

end AsmLint
