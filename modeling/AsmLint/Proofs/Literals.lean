import AsmLint.Proofs.LongestRun

/-! String literals and what lies in them. A literal starts at a quote, so nothing that stands
before the first quote of a line is part of one. -/

namespace AsmLint

def InLiteral (code : List Char) (start stop : Nat) : Prop :=
  ∃ literal ∈ literals code, literal.start ≤ start ∧ stop ≤ literal.stop

instance (code : List Char) (start stop : Nat) : Decidable (InLiteral code start stop) :=
  inferInstanceAs (Decidable (∃ literal ∈ literals code, _ ∧ _))

theorem insideAny_literals_iff {code : List Char} {start length : Nat} :
    insideAny (literals code) start length = true ↔ InLiteral code start (start + length) := by
  simp [insideAny, InLiteral]

theorem inside_literals_iff {code : List Char} {token : Token} :
    token.inside (literals code) = true ↔ InLiteral code token.start token.stop :=
  insideAny_literals_iff

section Closing

variable {quote : Char} {size : Nat}

theorem closing_escaped (quote c : Char) (rest : List Char) :
    closing quote ('\x5c' :: c :: rest) = (closing quote rest).map (· + 2) := by
  rw [closing]

theorem closing_plain {c : Char} (plain : c ≠ '\x5c') (rest : List Char) :
    closing quote (c :: rest) = if c = quote then some 1 else (closing quote rest).map (· + 1) := by
  rw [closing]
  · intro same _
    exact plain same
  · intro _ _ same _
    exact plain same

theorem ne_backslash {c : Char} {rest : List Char} (notLast : c = '\x5c' → rest = [] → False)
    (notEscaped : ∀ d more, c = '\x5c' → rest = d :: more → False) : c ≠ '\x5c' := by
  intro backslash
  cases rest with
  | nil => exact notLast backslash rfl
  | cons d more => exact notEscaped d more backslash rfl

/-- A literal closes with its own quote. A search for another quote that fails comes to this place
too, since all searches take the same characters together with a backslash. -/
theorem closing_eq_some {text : List Char} (closes : closing quote text = some size) :
    ∃ body after, text = body ++ quote :: after ∧ size = body.length + 1 ∧
      ∀ other, closing other text = none → closing other (quote :: after) = none := by
  fun_induction closing quote text generalizing size with
  | case1 => simp at closes
  | case2 => simp at closes
  | case3 c rest ih =>
    obtain ⟨inner, found, rfl⟩ := Option.map_eq_some_iff.1 closes
    obtain ⟨body, after, rfl, rfl, passes⟩ := ih found
    refine ⟨'\x5c' :: c :: body, after, rfl, rfl, ?_⟩
    intro other unclosed
    rw [closing_escaped, Option.map_eq_none_iff] at unclosed
    exact passes other unclosed
  | case4 rest notLast notEscaped =>
    obtain rfl := Option.some.inj closes
    exact ⟨[], rest, rfl, rfl, fun _ unclosed => unclosed⟩
  | case5 c rest notLast notEscaped different ih =>
    obtain ⟨inner, found, rfl⟩ := Option.map_eq_some_iff.1 closes
    obtain ⟨body, after, rfl, rfl, passes⟩ := ih found
    refine ⟨c :: body, after, rfl, rfl, ?_⟩
    intro other unclosed
    rw [closing_plain (ne_backslash notLast notEscaped)] at unclosed
    split at unclosed
    · simp at unclosed
    · exact passes other (Option.map_eq_none_iff.1 unclosed)

end Closing

theorem literalsFrom_append {before : List Char} (plain : AllIn (fun c => !isQuote c) before)
    (position : Nat) (rest : List Char) :
    literalsFrom position (before ++ rest) = literalsFrom (position + before.length) rest := by
  induction before generalizing position with
  | nil => rfl
  | cons c before ih =>
    obtain ⟨first, others⟩ := allIn_cons.1 plain
    have notQuote : ¬ isQuote c = true := by simpa using first
    rw [List.cons_append, literalsFrom, if_neg notQuote, ih others, List.length_cons,
      Nat.add_right_comm, Nat.add_assoc]

theorem mem_literalsFrom {position : Nat} {text : List Char} {literal : Extent}
    (member : literal ∈ literalsFrom position text) :
    ∃ before quote rest size, text = before ++ quote :: rest ∧ isQuote quote = true ∧
      closing quote rest = some size ∧
      literal = ⟨position + before.length, position + before.length + 1 + size⟩ := by
  fun_induction literalsFrom position text with
  | case1 => simp at member
  | case2 position c rest quote size closes ih =>
    rcases List.mem_cons.1 member with rfl | member
    · exact ⟨[], c, rest, size, rfl, quote, closes, rfl⟩
    · obtain ⟨body, after, rfl, rfl, -⟩ := closing_eq_some closes
      obtain ⟨before, d, tail, size, split, quote, closes, rfl⟩ := ih member
      have rest : after = before ++ d :: tail := by simpa using split
      refine ⟨c :: (body ++ c :: before), d, tail, size, by simp [rest], quote, closes, ?_⟩
      simp only [List.length_cons, List.length_append, Extent.mk.injEq]
      omega
  | case3 position c rest _ unclosed ih =>
    obtain ⟨before, d, tail, size, rfl, quote, closes, rfl⟩ := ih member
    refine ⟨c :: before, d, tail, size, rfl, quote, closes, ?_⟩
    simp only [List.length_cons, Extent.mk.injEq]
    omega
  | case4 position c rest plain ih =>
    obtain ⟨before, d, tail, size, rfl, quote, closes, rfl⟩ := ih member
    refine ⟨c :: before, d, tail, size, rfl, quote, closes, ?_⟩
    simp only [List.length_cons, Extent.mk.injEq]
    omega

theorem quote_of_mem_literals {code : List Char} {literal : Extent}
    (member : literal ∈ literals code) :
    ∃ c, code[literal.start]? = some c ∧ isQuote c = true := by
  obtain ⟨before, quote, rest, size, rfl, isQuote, -, rfl⟩ := mem_literalsFrom member
  exact ⟨quote, by simp, isQuote⟩

theorem length_le_start {before rest : List Char} {literal : Extent}
    (plain : AllIn (fun c => !isQuote c) before) (member : literal ∈ literals (before ++ rest)) :
    before.length ≤ literal.start := by
  obtain ⟨c, here, quote⟩ := quote_of_mem_literals member
  apply Nat.le_of_not_lt
  intro inside
  rw [List.getElem?_append_left inside, List.getElem?_eq_some_iff] at here
  obtain ⟨_, rfl⟩ := here
  have refused := plain _ (List.getElem_mem inside)
  simp [quote] at refused

theorem not_inLiteral {before rest : List Char} {start stop : Nat}
    (plain : AllIn (fun c => !isQuote c) before) (bound : start < before.length) :
    ¬ InLiteral (before ++ rest) start stop := by
  intro inside
  obtain ⟨literal, member, starts, -⟩ := inside
  have later := length_le_start plain member
  omega

end AsmLint
