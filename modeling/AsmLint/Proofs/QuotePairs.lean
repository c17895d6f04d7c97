import AsmLint.Proofs.BeforeQuote
import AsmLint.Proofs.ByteScans
import Mathlib.Order.Bounds.Defs

/-! String literals as pairs of quotes. Whether a quote closes a literal is told by what stands
right before it: the backslashes there, back to the opening quote, are even in number. The scanner
goes from left to right and takes a backslash together with the next character; it comes to the same
pairs. The literals of a text are the pairs that are found when the first one is taken, with its
first closing quote, and the rest is looked for after it. -/

namespace AsmLint

def endingBackslashes (text : List Char) : Nat := (text.reverse.takeWhile (· == '\x5c')).length

structure QuotePair (text : List Char) (start stop : Nat) : Prop where
  ordered : start < stop
  quotes : ∃ quote, isQuote quote = true ∧ text[start]? = some quote ∧ text[stop]? = some quote
  unescaped : endingBackslashes (Extent.slice ⟨start + 1, stop⟩ text) % 2 = 0

/-- The extents are the pairs of quotes of a text from `position` on, each taken as early as it can
be opened and then as early as it can be closed. -/
inductive GreedyPairs (text : List Char) : (position : Nat) → (extents : List Extent) → Prop where
  | none {position : Nat}
    (unpaired : ∀ start stop, position ≤ start → ¬ QuotePair text start stop) :
    GreedyPairs text position []
  | pair {position start stop : Nat} {extents : List Extent} (later : position ≤ start)
    (pair : QuotePair text start stop)
    (first : ∀ earlier other, position ≤ earlier → earlier < start →
      ¬ QuotePair text earlier other)
    (closest : ∀ other < stop, ¬ QuotePair text start other)
    (others : GreedyPairs text (stop + 1) extents) :
    GreedyPairs text position (⟨start, stop + 1⟩ :: extents)

section Backslashes

theorem endingBackslashes_append (before text : List Char) :
    endingBackslashes (before ++ text) =
      if endingBackslashes text = text.length then text.length + endingBackslashes before
      else endingBackslashes text := by
  rw [endingBackslashes, List.reverse_append, List.takeWhile_append, List.length_reverse,
    ← endingBackslashes]
  split
  · rw [List.length_append, List.length_reverse, ← endingBackslashes]
  · rfl

theorem endingBackslashes_plain {c : Char} (plain : c ≠ '\x5c') (text : List Char) :
    endingBackslashes (c :: text) = endingBackslashes text := by
  have single : endingBackslashes [c] = 0 := by simp [endingBackslashes, plain]
  have both := endingBackslashes_append [c] text
  rw [List.singleton_append, single] at both
  split at both <;> omega

/-- A backslash and the character after it leave the parity as it is: they count together, if the
character is a backslash too, or not at all. -/
theorem endingBackslashes_escaped (c : Char) (text : List Char) :
    endingBackslashes ('\x5c' :: c :: text) % 2 = endingBackslashes text % 2 := by
  have pair : endingBackslashes ['\x5c', c] % 2 = 0 := by
    by_cases backslash : c = '\x5c' <;> simp [endingBackslashes, backslash]
  have both := endingBackslashes_append ['\x5c', c] text
  rw [List.cons_append, List.singleton_append] at both
  split at both <;> omega

end Backslashes

section Closing

def ClosesAt (quote : Char) (text : List Char) (position : Nat) : Prop :=
  text[position]? = some quote ∧ endingBackslashes (text.take position) % 2 = 0

variable {quote c : Char} {rest : List Char} {position : Nat}

theorem closesAt_escaped_iff (plain : quote ≠ '\x5c') :
    ClosesAt quote ('\x5c' :: c :: rest) position ↔
      ∃ inner, position = inner + 2 ∧ ClosesAt quote rest inner := by
  rcases position with _ | _ | inner
  · simp [ClosesAt, plain.symm]
  · simp [ClosesAt, endingBackslashes]
  · simp [ClosesAt, endingBackslashes_escaped]

theorem closesAt_plain_iff (plain : c ≠ '\x5c') :
    ClosesAt quote (c :: rest) position ↔
      (position = 0 ∧ c = quote) ∨ ∃ inner, position = inner + 1 ∧ ClosesAt quote rest inner := by
  cases position with
  | zero => simp [ClosesAt, endingBackslashes]
  | succ inner => simp [ClosesAt, endingBackslashes_plain plain]

theorem not_closesAt_of_closing {text : List Char} (plain : quote ≠ '\x5c')
    (unclosed : closing quote text = none) : ¬ ClosesAt quote text position := by
  fun_induction closing quote text generalizing position with
  | case1 => simp [ClosesAt]
  | case2 =>
    -- The backslash that ends the text is no quote, and there is nothing after it.
    rintro ⟨here, -⟩
    cases position with
    | zero => exact plain (Option.some.inj here).symm
    | succ position => simp at here
  | case3 c rest ih =>
    rw [closesAt_escaped_iff plain]
    rintro ⟨inner, -, closes⟩
    exact ih (Option.map_eq_none_iff.1 unclosed) closes
  | case4 => simp at unclosed
  | case5 c rest notLast notEscaped different ih =>
    rw [closesAt_plain_iff (ne_backslash notLast notEscaped)]
    rintro (⟨-, same⟩ | ⟨inner, -, closes⟩)
    · exact different same
    · exact ih (Option.map_eq_none_iff.1 unclosed) closes

theorem isLeast_of_closing {text : List Char} {size : Nat} (plain : quote ≠ '\x5c')
    (closes : closing quote text = some size) :
    ∃ position, size = position + 1 ∧ IsLeast {place | ClosesAt quote text place} position := by
  fun_induction closing quote text generalizing size with
  | case1 => simp at closes
  | case2 => simp at closes
  | case3 c rest ih =>
    obtain ⟨inner, found, rfl⟩ := Option.map_eq_some_iff.1 closes
    obtain ⟨position, rfl, here, least⟩ := ih found
    refine ⟨position + 2, rfl, (closesAt_escaped_iff plain).2 ⟨position, rfl, here⟩, ?_⟩
    intro other closesThere
    obtain ⟨place, rfl, there⟩ := (closesAt_escaped_iff plain).1 closesThere
    have bound := least there
    omega
  | case4 rest notLast notEscaped =>
    obtain rfl := Option.some.inj closes
    exact ⟨0, rfl, (closesAt_plain_iff plain).2 (.inl ⟨rfl, rfl⟩), fun _ _ => Nat.zero_le _⟩
  | case5 c rest notLast notEscaped different ih =>
    have plainFirst := ne_backslash notLast notEscaped
    obtain ⟨inner, found, rfl⟩ := Option.map_eq_some_iff.1 closes
    obtain ⟨position, rfl, here, least⟩ := ih found
    refine ⟨position + 1, rfl, (closesAt_plain_iff plainFirst).2 (.inr ⟨position, rfl, here⟩), ?_⟩
    intro other closesThere
    rcases (closesAt_plain_iff plainFirst).1 closesThere with ⟨-, same⟩ | ⟨place, rfl, there⟩
    · exact absurd same different
    · have bound := least there
      omega

end Closing

section Pairs

variable {text before rest : List Char} {quote : Char} {start stop : Nat}

theorem quotePair_iff (quoted : isQuote quote = true) :
    QuotePair (before ++ quote :: rest) before.length stop ↔
      ∃ position, stop = before.length + 1 + position ∧ ClosesAt quote rest position := by
  have slice (position : Nat) :
      Extent.slice ⟨before.length + 1, before.length + 1 + position⟩ (before ++ quote :: rest) =
        rest.take position := by
    simp [Extent.slice, Extent.length, List.drop_length_add_append]
  have here (position : Nat) :
      (before ++ quote :: rest)[before.length + 1 + position]? = rest[position]? := by
    rw [List.getElem?_append_right (by omega)]
    have column : before.length + 1 + position - before.length = position + 1 := by omega
    rw [column, List.getElem?_cons_succ]
  constructor
  · intro pair
    obtain ⟨position, rfl⟩ := Nat.exists_eq_add_of_le (Nat.succ_le_of_lt pair.ordered)
    obtain ⟨other, -, opens, closes⟩ := pair.quotes
    obtain rfl : quote = other := by simpa using opens
    have unescaped := pair.unescaped
    rw [slice] at unescaped
    exact ⟨position, rfl, by rw [← here, closes], unescaped⟩
  · rintro ⟨position, rfl, closes, unescaped⟩
    refine ⟨by omega, ⟨quote, quoted, by simp, by rw [here, closes]⟩, ?_⟩
    rw [slice]
    exact unescaped

theorem GreedyPairs.skip {position : Nat} {extents : List Extent}
    (unpaired : ∀ stop, ¬ QuotePair text position stop)
    (others : GreedyPairs text (position + 1) extents) : GreedyPairs text position extents := by
  have passed {earlier other : Nat} (bound : position ≤ earlier)
      (pair : QuotePair text earlier other) : position + 1 ≤ earlier := by
    rcases Nat.eq_or_lt_of_le bound with rfl | later
    · exact absurd pair (unpaired other)
    · exact later
  cases others with
  | none nothing =>
    refine .none fun start stop bound pair => ?_
    exact nothing start stop (passed bound pair) pair
  | pair later pair first closest others =>
    refine .pair (by omega) pair (fun earlier other bound less found => ?_) closest others
    exact first earlier other (passed bound found) less found

theorem greedyPairs_literalsFrom (before text : List Char) :
    GreedyPairs (before ++ text) before.length (literalsFrom before.length text) := by
  generalize start : before.length = position
  fun_induction literalsFrom position text generalizing before with
  | case1 position =>
    refine .none fun start stop bound pair => ?_
    obtain ⟨quote, -, opens, -⟩ := pair.quotes
    rw [List.append_nil, List.getElem?_eq_none (by omega)] at opens
    simp at opens
  | case2 position c rest quoted size closes ih =>
    -- The pair that starts here is the first; the others are looked for after its closing quote.
    subst start
    obtain ⟨place, rfl, here, least⟩ :=
      isLeast_of_closing (ne_of_isQuote quoted (by decide)) closes
    obtain ⟨body, after, split, length, -⟩ := closing_eq_some closes
    have bound : place + 1 ≤ rest.length := by
      rw [split, length, List.length_append, List.length_cons]
      omega
    have next := ih (before ++ c :: rest.take (place + 1)) (by simp [bound]; omega)
    have whole : before ++ c :: rest.take (place + 1) ++ rest.drop (place + 1) =
        before ++ c :: rest := by simp
    rw [whole] at next
    have pair : QuotePair (before ++ c :: rest) before.length (before.length + 1 + place) :=
      (quotePair_iff quoted).2 ⟨place, rfl, here⟩
    have closest : ∀ other < before.length + 1 + place,
        ¬ QuotePair (before ++ c :: rest) before.length other := by
      intro other less pair
      obtain ⟨earlier, rfl, closesThere⟩ := (quotePair_iff quoted).1 pair
      have bound := least closesThere
      omega
    exact .pair (Nat.le_refl _) pair (fun earlier other bound less => by omega) closest next
  | case3 position c rest quoted unclosed ih =>
    have next := ih (before ++ [c]) (by simp [start])
    rw [List.append_assoc, List.singleton_append] at next
    refine next.skip fun stop pair => ?_
    rw [← start, quotePair_iff quoted] at pair
    obtain ⟨place, -, closes⟩ := pair
    exact not_closesAt_of_closing (ne_of_isQuote quoted (by decide)) unclosed closes
  | case4 position c rest plain ih =>
    have next := ih (before ++ [c]) (by simp [start])
    rw [List.append_assoc, List.singleton_append] at next
    refine next.skip fun stop pair => ?_
    obtain ⟨quote, quoted, opens, -⟩ := pair.quotes
    obtain rfl : c = quote := by simpa [← start] using opens
    exact plain quoted

theorem GreedyPairs.unique {position : Nat} {extents others : List Extent}
    (greedy : GreedyPairs text position extents) (other : GreedyPairs text position others) :
    extents = others := by
  induction greedy generalizing others with
  | none unpaired =>
    cases other with
    | none => rfl
    | pair later pair => exact absurd pair (unpaired _ _ later)
  | pair later pair first closest rest ih =>
    cases other with
    | none unpaired => exact absurd pair (unpaired _ _ later)
    | @pair _ start' stop' _ later' pair' first' closest' rest' =>
      obtain rfl := Nat.le_antisymm
        (Nat.le_of_not_lt fun less => first _ _ later' less pair')
        (Nat.le_of_not_lt fun less => first' _ _ later less pair)
      obtain rfl := Nat.le_antisymm
        (Nat.le_of_not_lt fun less => closest _ less pair')
        (Nat.le_of_not_lt fun less => closest' _ less pair)
      rw [ih rest']

structure Quoted (text : List Char) (extent : Extent) : Prop where
  wide : extent.start + 2 ≤ extent.stop
  quotes : ∃ quote, isQuote quote = true ∧ text[extent.start]? = some quote ∧
    text[extent.stop - 1]? = some quote

theorem QuotePair.quoted (pair : QuotePair text start stop) : Quoted text ⟨start, stop + 1⟩ :=
  ⟨Nat.succ_le_succ pair.ordered, pair.quotes⟩

theorem GreedyPairs.quoted {position : Nat} {extents : List Extent}
    (greedy : GreedyPairs text position extents) :
    ∀ extent ∈ extents, position ≤ extent.start ∧ Quoted text extent := by
  induction greedy with
  | none => simp
  | pair later pair first closest others ih =>
    intro extent member
    rcases List.mem_cons.1 member with rfl | member
    · exact ⟨later, pair.quoted⟩
    · obtain ⟨bound, quoted⟩ := ih extent member
      have ordered := pair.ordered
      exact ⟨by omega, quoted⟩

theorem GreedyPairs.pairwise {position : Nat} {extents : List Extent}
    (greedy : GreedyPairs text position extents) :
    extents.Pairwise fun a b => a.start < b.start ∧ a.stop ≤ b.start := by
  induction greedy with
  | none => exact .nil
  | pair later pair first closest others ih =>
    refine List.pairwise_cons.2 ⟨fun extent member => ?_, ih⟩
    have bound := (others.quoted extent member).1
    have ordered := pair.ordered
    exact ⟨by dsimp only; omega, bound⟩

end Pairs

structure GreedyLiterals (text : List Char) (extents : List Extent) : Prop where
  greedy : ∀ others, GreedyPairs text 0 others ↔ others = extents
  apart : extents.Pairwise fun a b => a.start < b.start ∧ a.stop ≤ b.start
  quoted : ∀ extent ∈ extents, Quoted text extent

theorem greedyPairs_literals (code : List Char) : GreedyPairs code 0 (literals code) :=
  greedyPairs_literalsFrom [] code

/-- The first quote has no partner, and the last one comes after an escaped backslash. -/
example : literals "AF' \"x\\\\\"".toList = [⟨4, 9⟩] := by decide +kernel

theorem quoted_of_mem_literals {code : List Char} {literal : Extent}
    (member : literal ∈ literals code) : Quoted code literal :=
  ((greedyPairs_literals code).quoted literal member).2

theorem greedyLiterals_literals (code : List Char) : GreedyLiterals code (literals code) where
  greedy others := by
    constructor
    · intro greedy
      exact greedy.unique (greedyPairs_literals code)
    · rintro rfl
      exact greedyPairs_literals code
  apart := (greedyPairs_literals code).pairwise
  quoted _ := quoted_of_mem_literals

/-- The scanner finds the greedy pairs, among the characters of a text and among its bytes. -/
theorem literals_are_greedy_pairs (code : List Char) :
    GreedyLiterals code (literals code) ∧
      GreedyLiterals (Bytes.view code) ((literals code).map (·.toBytes code)) := by
  refine ⟨greedyLiterals_literals code, ?_⟩
  rw [← Bytes.literals_view]
  exact greedyLiterals_literals (Bytes.view code)

end AsmLint
