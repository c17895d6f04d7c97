import AsmLint.Proofs.LongestRun

/-! The names of a line. A name is a maximal run of name characters that is no number; this is said
of the code around the run, without a scanner. The scanner finds all names and nothing else, from
left to right. -/

namespace AsmLint

/-- A name with the code before and after it. A run led by a digit is a number, and so is a run of
hexadecimal digits right after a dollar sign. -/
structure NameBetween (before text after : List Char) : Prop where
  nonempty : text ≠ []
  inside : AllIn isNameChar text
  begins : EndsOutside isNameChar before
  ends : StartsOutside isNameChar after
  notNumber : StartsOutside Char.isDigit text
  notHexadecimal : before.getLast? = some '$' → ¬ AllIn isHexDigit text

def IsName (code : List Char) (token : Token) : Prop :=
  ∃ before after, code = before ++ token.text ++ after ∧ before.length = token.start ∧
    NameBetween before token.text after

theorem isSpace_of_isNameChar {c : Char} (nameChar : isNameChar c = true) : isSpace c = false := by
  rw [Bool.eq_false_iff]
  intro space
  unfold isNameChar Char.isAlphanum at nameChar
  delta Char.isAlpha Char.isUpper Char.isLower at nameChar
  simp only [isSpace, Char.isDigit, Bool.or_eq_true, Bool.and_eq_true, decide_eq_true_iff,
    beq_iff_eq, ge_iff_le, UInt32.le_iff_toNat_le, Char.ext_iff, ← UInt32.toNat_inj, Char.toNat,
    UInt32.reduceToNat, Char.reduceVal] at space nameChar
  omega

theorem IsName.first {code : List Char} {token : Token} (name : IsName code token) :
    ∃ c, code[token.start]? = some c ∧ isNameChar c = true := by
  obtain ⟨before, after, rfl, start, between⟩ := name
  obtain ⟨c, rest, text⟩ := List.exists_cons_of_ne_nil between.nonempty
  refine ⟨c, ?_, between.inside c (by simp [text])⟩
  simp [← start, text]

theorem IsName.previous {code : List Char} {token : Token} {position : Nat} {c : Char}
    (name : IsName code token) (start : token.start = position + 1)
    (here : code[position]? = some c) : isNameChar c = false := by
  obtain ⟨before, after, rfl, length, between⟩ := name
  apply between.begins c
  rw [Option.mem_def, List.getLast?_eq_getElem?, length, start, Nat.add_sub_cancel, ← here,
    List.append_assoc, List.getElem?_append_left (by omega)]

theorem isName_at_iff {left text : List Char} {name : List Char} :
    IsName (left ++ text) ⟨name, left.length⟩ ↔
      NameBetween left name (text.dropWhile isNameChar) ∧ name = text.takeWhile isNameChar := by
  constructor
  · rintro ⟨before, after, split, length, between⟩
    rw [List.append_assoc] at split
    obtain ⟨rfl, rest⟩ := List.append_inj split length.symm
    have run : LongestRun isNameChar text name after := ⟨rest, between.inside, between.ends⟩
    rw [run.dropWhile_eq, run.takeWhile_eq]
    exact ⟨between, rfl⟩
  · rintro ⟨between, same⟩
    refine ⟨left, text.dropWhile isNameChar, ?_, rfl, between⟩
    rw [same, List.append_assoc, List.takeWhile_append_dropWhile]

theorem isName_skip_iff {left rest : List Char} {c : Char} {token : Token}
    (other : isNameChar c = false) :
    left.length ≤ token.start ∧ IsName (left ++ c :: rest) token ↔
      (left ++ [c]).length ≤ token.start ∧ IsName ((left ++ [c]) ++ rest) token := by
  simp only [List.length_append, List.length_singleton, List.append_assoc, List.singleton_append]
  constructor
  · rintro ⟨bound, name⟩
    refine ⟨?_, name⟩
    obtain ⟨d, here, nameChar⟩ := name.first
    have different : token.start ≠ left.length := by
      intro start
      rw [start, List.getElem?_append_right (Nat.le_refl _), Nat.sub_self] at here
      obtain rfl : c = d := by simpa using here
      simp [other] at nameChar
    omega
  · rintro ⟨bound, name⟩
    exact ⟨by omega, name⟩

theorem isName_run_iff {left text : List Char} {token : Token} :
    left.length ≤ token.start ∧ IsName (left ++ text) token ↔
      (token.start = left.length ∧ IsName (left ++ text) token) ∨
      ((left ++ text.takeWhile isNameChar).length ≤ token.start ∧
        IsName ((left ++ text.takeWhile isNameChar) ++ text.dropWhile isNameChar) token) := by
  have same : (left ++ text.takeWhile isNameChar) ++ text.dropWhile isNameChar = left ++ text := by
    rw [List.append_assoc, List.takeWhile_append_dropWhile]
  rw [same, List.length_append]
  constructor
  · rintro ⟨bound, name⟩
    by_cases start : token.start = left.length
    · exact .inl ⟨start, name⟩
    · refine .inr ⟨?_, name⟩
      -- A name cannot start inside the run: the character before it would be a name character.
      apply Nat.le_of_not_lt
      intro short
      obtain ⟨before, position⟩ : ∃ n, token.start = left.length + n + 1 :=
        ⟨token.start - left.length - 1, by omega⟩
      have inRun : before < (text.takeWhile isNameChar).length := by omega
      have here : (left ++ text)[left.length + before]? =
          some (text.takeWhile isNameChar)[before] := by
        rw [← same, List.append_assoc, List.getElem?_append_right (by omega),
          Nat.add_sub_cancel_left, List.getElem?_append_left inRun, List.getElem?_eq_getElem inRun]
      have refused := name.previous position here
      have taken := (longestRun_takeWhile isNameChar text).inside _ (List.getElem_mem inRun)
      simp [taken] at refused
  · rintro (⟨start, name⟩ | ⟨bound, name⟩)
    · exact ⟨by omega, name⟩
    · exact ⟨by omega, name⟩

theorem longestRun_cons {c : Char} (nameChar : isNameChar c = true) (rest : List Char) :
    LongestRun isNameChar (c :: rest) (c :: rest.takeWhile isNameChar)
      (rest.dropWhile isNameChar) :=
  longestRun_iff.2 (by simp [nameChar])

theorem isName_first_iff {left rest : List Char} {c : Char} {token : Token}
    (nameChar : isNameChar c = true) (begins : EndsOutside isNameChar left) :
    token.start = left.length ∧ IsName (left ++ c :: rest) token ↔
      (c.isDigit || (left.getLast? == some '$' && (c :: rest.takeWhile isNameChar).all isHexDigit))
          = false ∧
        token = ⟨c :: rest.takeWhile isNameChar, left.length⟩ := by
  have longest := longestRun_cons nameChar rest
  have hexadecimal : AllIn isHexDigit (c :: rest.takeWhile isNameChar) ↔
      (c :: rest.takeWhile isNameChar).all isHexDigit = true := List.all_eq_true.symm
  constructor
  · rintro ⟨start, name⟩
    obtain ⟨text, _⟩ := token
    obtain rfl : _ = left.length := start
    obtain ⟨between, same⟩ := isName_at_iff.1 name
    rw [longest.takeWhile_eq] at same
    subst same
    have notNumber := startsOutside_cons.1 between.notNumber
    have notHexadecimal := between.notHexadecimal
    rw [hexadecimal] at notHexadecimal
    refine ⟨?_, rfl⟩
    simp only [notNumber, Bool.false_or, Bool.and_eq_false_iff, beq_eq_false_iff_ne]
    by_cases dollar : left.getLast? = some '$'
    · exact .inr (by simpa using notHexadecimal dollar)
    · exact .inl dollar
  · rintro ⟨notNumber, rfl⟩
    simp only [Bool.or_eq_false_iff, Bool.and_eq_false_iff, beq_eq_false_iff_ne] at notNumber
    refine ⟨rfl, isName_at_iff.2 ⟨?_, longest.takeWhile_eq.symm⟩⟩
    rw [longest.dropWhile_eq]
    exact {
      nonempty := by simp
      inside := longest.inside
      begins
      ends := longest.stops
      notNumber := startsOutside_cons.2 notNumber.1
      notHexadecimal := by
        intro dollar
        rw [hexadecimal]
        simpa [dollar] using notNumber.2 }

theorem getLast?_run_ne_dollar {left run : List Char} (inside : AllIn isNameChar run)
    (nonempty : run ≠ []) : ((left ++ run).getLast? == some '$') = false := by
  obtain ⟨last, found⟩ := Option.isSome_iff_exists.1 (List.getLast?_isSome.2 nonempty)
  have nameChar := inside last (List.mem_of_getLast? found)
  rw [List.getLast?_append, found, Option.some_or, beq_eq_false_iff_ne]
  rintro ⟨⟩
  revert nameChar
  decide

/-- The scanner in the middle of a line: `left` is passed, and no run of name characters reaches
across the place where it stands. -/
theorem mem_namesFrom_iff {position : Nat} {afterDollar : Bool} {left text : List Char}
    {token : Token} (length : left.length = position)
    (dollar : afterDollar = (left.getLast? == some '$'))
    (boundary : EndsOutside isNameChar left ∨ StartsOutside isNameChar text) :
    token ∈ namesFrom position afterDollar text ↔
      left.length ≤ token.start ∧ IsName (left ++ text) token := by
  revert left
  fun_induction namesFrom position afterDollar text
  case case1 position afterDollar =>
    intro left length dollar boundary
    simp only [List.not_mem_nil, false_iff, not_and]
    intro bound name
    obtain ⟨c, here, -⟩ := name.first
    simp only [List.append_nil, List.getElem?_eq_some_iff] at here
    obtain ⟨inside, -⟩ := here
    omega
  case case2 position afterDollar c rest nameChar run others number ih =>
    intro left length dollar boundary
    have begins := boundary.resolve_right (by simp [nameChar])
    have longest := longestRun_cons nameChar rest
    have later := @ih (left ++ run) (by simp [length])
      (getLast?_run_ne_dollar longest.inside (by simp)).symm (.inr longest.stops)
    rw [isName_run_iff, isName_first_iff nameChar begins, ← dollar, number, longest.takeWhile_eq,
      longest.dropWhile_eq, ← later]
    simp [others]
  case case3 position afterDollar c rest nameChar run others notNumber ih =>
    intro left length dollar boundary
    have begins := boundary.resolve_right (by simp [nameChar])
    have longest := longestRun_cons nameChar rest
    have later := @ih (left ++ run) (by simp [length])
      (getLast?_run_ne_dollar longest.inside (by simp)).symm (.inr longest.stops)
    rw [Bool.not_eq_true] at notNumber
    rw [isName_run_iff, isName_first_iff nameChar begins, ← dollar, notNumber, longest.takeWhile_eq,
      longest.dropWhile_eq, ← later, List.mem_cons, length]
    simp [run, others]
  case case4 position afterDollar c rest other ih =>
    intro left length dollar boundary
    have other : isNameChar c = false := by simpa using other
    rw [isName_skip_iff other]
    apply ih
    · simp [length]
    · simp
    · exact .inl (by simp [EndsOutside, other])

theorem mem_names_iff {code : List Char} {token : Token} :
    token ∈ names code ↔ IsName code token := by
  have scanned := @mem_namesFrom_iff 0 false [] code token rfl rfl
    (.inl (by simp [EndsOutside]))
  simpa [names] using scanned

theorem length_run (c : Char) (rest : List Char) :
    (c :: rest.takeWhile isNameChar).length + (rest.dropWhile isNameChar).length =
      (c :: rest).length := by
  rw [← List.length_append, List.cons_append, List.takeWhile_append_dropWhile]

theorem namesFrom_within {position : Nat} {afterDollar : Bool} {text : List Char}
    {token : Token} (member : token ∈ namesFrom position afterDollar text) :
    position ≤ token.start ∧ token.stop ≤ position + text.length := by
  fun_induction namesFrom position afterDollar text with
  | case1 => simp at member
  | case2 position afterDollar c rest nameChar run others number ih =>
    have later := ih member
    have length : run.length + (rest.dropWhile isNameChar).length = (c :: rest).length :=
      length_run c rest
    omega
  | case3 position afterDollar c rest nameChar run others notNumber ih =>
    have length : run.length + (rest.dropWhile isNameChar).length = (c :: rest).length :=
      length_run c rest
    rcases List.mem_cons.1 member with rfl | member
    · refine ⟨Nat.le_refl _, ?_⟩
      simp only [Token.stop]
      omega
    · have later := ih member
      omega
  | case4 position afterDollar c rest other ih =>
    have later := ih member
    rw [List.length_cons]
    omega

theorem namesFrom_append {c : Char} (other : isNameChar c = false) (position : Nat)
    (afterDollar : Bool) (text rest : List Char) :
    namesFrom position afterDollar (text ++ c :: rest) =
      namesFrom position afterDollar text ++
        namesFrom (position + text.length + 1) (c == '$') rest := by
  fun_induction namesFrom position afterDollar text with
  | case1 =>
    rw [List.nil_append, namesFrom]
    simp [other]
  | case2 position afterDollar d text nameChar run others number ih =>
    have longest := (longestRun_takeWhile isNameChar text).extend other rest
    rw [List.cons_append, namesFrom, if_pos nameChar, longest.takeWhile_eq, longest.dropWhile_eq,
      if_pos number, ← length_run d text, ← Nat.add_assoc]
    exact ih
  | case3 position afterDollar d text nameChar run others notNumber ih =>
    have longest := (longestRun_takeWhile isNameChar text).extend other rest
    rw [List.cons_append, namesFrom, if_pos nameChar, longest.takeWhile_eq, longest.dropWhile_eq,
      if_neg notNumber, ← length_run d text, ← Nat.add_assoc, List.cons_append]
    exact congrArg _ ih
  | case4 position afterDollar d text notName ih =>
    rw [List.cons_append, namesFrom, if_neg notName, ih, List.length_cons]
    congr 2
    omega

theorem pairwise_namesFrom (position : Nat) (afterDollar : Bool) (text : List Char) :
    (namesFrom position afterDollar text).Pairwise fun a b => a.stop ≤ b.start := by
  fun_induction namesFrom position afterDollar text with
  | case1 => exact .nil
  | case2 position afterDollar c rest nameChar run others number ih => exact ih
  | case3 position afterDollar c rest nameChar run others notNumber ih =>
    exact List.pairwise_cons.2 ⟨fun token member => (namesFrom_within member).1, ih⟩
  | case4 position afterDollar c rest other ih => exact ih

theorem pairwise_names (code : List Char) :
    (names code).Pairwise fun a b => a.stop ≤ b.start :=
  pairwise_namesFrom 0 false code

end AsmLint
