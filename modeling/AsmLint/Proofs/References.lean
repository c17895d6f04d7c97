import AsmLint.Proofs.Findings
import AsmLint.Proofs.Names
import AsmLint.Proofs.SymbolTable
import AsmLint.Proofs.Vocabulary
import Mathlib.Data.List.Forall2

/-! Names without a meaning. A name of a line is undefined if it stands outside string literals, the
table does not know it and no line introduces it. The undefined names are reported once each, line
by line and from left to right. -/

namespace AsmLint

/-- Letter case aside the table knows the word, or some line introduces it just as it is written. -/
def Resolved (table : RuleTable) (lines : List (List Char)) (word : String) : Prop :=
  table.Knows word ∨ Introduces table.isDeclarationKeyword lines word

def UndefinedAt (table : RuleTable) (lines : List (List Char)) (line : Nat) (token : Token) :
    Prop :=
  ∃ raw, lines[line]? = some raw ∧ IsName (codePart raw) token ∧
    ¬ InLiteral (codePart raw) token.start token.stop ∧ ¬ Resolved table lines token.name

/-- A line of white space alone has no names, so passing over it loses none. -/
theorem names_eq_nil {code : List Char} (blank : trim code = []) : names code = [] := by
  rw [trim_eq_nil_iff] at blank
  apply List.eq_nil_iff_forall_not_mem.2
  intro token member
  obtain ⟨c, here, nameChar⟩ := (mem_names_iff.1 member).first
  have space := blank c (List.mem_of_getElem? here)
  simp [isSpace_of_isNameChar nameChar] at space

theorem head?_name_ne_percent {code : List Char} {token : Token} (name : IsName code token) :
    token.name.toList.head? ≠ some '%' := by
  obtain ⟨before, after, -, -, between⟩ := name
  rw [Token.name, String.toList_ofList]
  intro first
  have nameChar := between.inside '%' (List.mem_of_mem_head? first)
  revert nameChar
  decide

section Document

variable {table : RuleTable} {policy : OperandPolicy} {lines : List (List Char)}

theorem isResolved_iff {code : List Char} {token : Token} (name : IsName code token) :
    isResolved (.ofTable table policy) (.build (.ofTable table policy) lines) token.name = true ↔
      Resolved table lines token.name := by
  have described := SymbolTable.describes_build (.ofTable table policy) lines
  rw [isResolved, Bool.or_eq_true, Bool.or_eq_true, described.known,
    Grammar.knows_iff (head?_name_ne_percent name), Grammar.isDeclarationKeyword_ofTable, Resolved]

theorem mem_undefinedNames_iff {code : List Char} {token : Token} :
    token ∈ undefinedNames (.ofTable table policy) (.build (.ofTable table policy) lines) code ↔
      IsName code token ∧ ¬ InLiteral code token.start token.stop ∧
        ¬ Resolved table lines token.name := by
  rw [undefinedNames, List.mem_filter, mem_names_iff]
  apply and_congr_right
  intro name
  rw [Bool.and_eq_true, Bool.not_eq_true', Bool.not_eq_true', ← Bool.not_eq_true,
    ← Bool.not_eq_true, inside_literals_iff, isResolved_iff name]

end Document

def undefinedPlaces (grammar : Grammar) (lines : List (List Char)) : List (Nat × Token) :=
  lines.zipIdx.flatMap fun (raw, line) =>
    (undefinedNames grammar (.build grammar lines) (codePart raw)).map (line, ·)

theorem mem_undefinedPlaces_iff {table : RuleTable} {policy : OperandPolicy}
    {lines : List (List Char)} {line : Nat} {token : Token} :
    (line, token) ∈ undefinedPlaces (.ofTable table policy) lines ↔
      UndefinedAt table lines line token := by
  simp only [undefinedPlaces, List.mem_flatMap, List.mem_map, List.mem_zipIdx_iff_getElem?,
    Prod.mk.injEq, mem_undefinedNames_iff, UndefinedAt]
  constructor
  · rintro ⟨⟨raw, _⟩, here, token, undefined, rfl, rfl⟩
    exact ⟨raw, here, undefined⟩
  · rintro ⟨raw, here, undefined⟩
    exact ⟨(raw, line), here, token, undefined, rfl, rfl⟩

theorem start_lt_start {code : List Char} {a b : Token} (name : IsName code a)
    (apart : a.stop ≤ b.start) : a.start < b.start := by
  obtain ⟨before, after, -, -, between⟩ := name
  have length := List.length_pos_iff.2 between.nonempty
  rw [Token.stop] at apart
  omega

theorem pairwise_zipIdx (lines : List (List Char)) :
    lines.zipIdx.Pairwise fun a b => a.2 < b.2 := by
  have increasing : (lines.zipIdx.map Prod.snd).Pairwise (· < ·) := by
    rw [List.zipIdx_map_snd]
    exact List.pairwise_lt_range'
  exact List.pairwise_map.1 increasing

theorem pairwise_undefinedPlaces (grammar : Grammar) (lines : List (List Char)) :
    (undefinedPlaces grammar lines).Pairwise fun a b =>
      a.1 < b.1 ∨ a.1 = b.1 ∧ a.2.start < b.2.start := by
  rw [undefinedPlaces, List.pairwise_flatMap]
  constructor
  · rintro ⟨raw, line⟩ -
    rw [List.pairwise_map, undefinedNames]
    apply ((pairwise_names (codePart raw)).filter _).imp_of_mem
    intro a b first _ apart
    exact .inr ⟨rfl, start_lt_start (mem_names_iff.1 (List.mem_filter.1 first).1) apart⟩
  · apply (pairwise_zipIdx lines).imp
    rintro ⟨raw, line⟩ ⟨other, later⟩ less place inFirst place' inSecond
    obtain ⟨token, -, rfl⟩ := List.mem_map.1 inFirst
    obtain ⟨token', -, rfl⟩ := List.mem_map.1 inSecond
    exact .inl less

theorem symbolFindings_checkLine (grammar : Grammar) (symbols : SymbolTable) (line : Nat)
    (raw : List Char) :
    symbolFindings (checkLine grammar symbols line raw) =
      checkReferences grammar symbols line (codePart raw) := by
  unfold checkLine
  dsimp only
  split
  case isTrue blank =>
    rw [checkReferences, undefinedNames, names_eq_nil (List.isEmpty_iff.1 blank)]
    rfl
  case isFalse =>
    have usage : symbolFindings (checkUsage grammar line (codePart raw)).toList = [] := by
      apply List.filter_eq_nil_iff.2
      intro issue member
      simp [(isOf_checkUsage (Option.mem_toList.1 member)).id_eq]
    have references : symbolFindings (checkReferences grammar symbols line (codePart raw)) =
        checkReferences grammar symbols line (codePart raw) := by
      apply @symbolFindings_eq_self [.undefinedSymbol] _ (by decide)
      intro issue member
      exact ⟨_, by simp, isOf_checkReferences member⟩
    rw [symbolFindings_append, usage, references, List.nil_append]

theorem findingsOf_checkLine (grammar : Grammar) (symbols : SymbolTable) (line : Nat)
    (raw : List Char) :
    findingsOf .undefinedSymbol (checkLine grammar symbols line raw) =
      checkReferences grammar symbols line (codePart raw) := by
  rw [← findingsOf_symbolFindings (by decide), symbolFindings_checkLine]
  exact findingsOf_eq_self fun _ => isOf_checkReferences

theorem findingsOf_undefinedSymbol (grammar : Grammar) (lines : List (List Char)) :
    findingsOf .undefinedSymbol (validateLines grammar lines).issues =
      lines.zipIdx.flatMap fun numbered =>
        checkReferences grammar (.build grammar lines) numbered.2 (codePart numbered.1) := by
  rw [findingsOf_lineWise (by decide), checkLines, findingsOf, List.filter_flatMap]
  apply List.flatMap_congr
  intro numbered _
  exact findingsOf_checkLine grammar _ numbered.2 numbered.1

theorem findingsOf_checkLines (grammar : Grammar) (lines : List (List Char)) :
    findingsOf .undefinedSymbol (validateLines grammar lines).issues =
      (undefinedPlaces grammar lines).map fun place => referenceFinding place.1 place.2 := by
  rw [findingsOf_undefinedSymbol, undefinedPlaces, List.map_flatMap]
  apply List.flatMap_congr
  rintro ⟨raw, line⟩ -
  rw [List.map_map]
  rfl

/-- The undefined names of a document, and nothing else, are reported as undefined, in order of line
and then of column. Each finding covers its name and gives its text. -/
theorem undefinedSymbol_findings (table : RuleTable) (policy : OperandPolicy)
    (lines : List (List Char)) :
    ∃ reported : List (Nat × Token),
      List.Forall₂ (fun place finding =>
          finding.span = some ⟨place.1, place.2.start, place.2.stop⟩ ∧
            finding.value? "name" = some place.2.name)
        reported
        (findingsOf .undefinedSymbol (validateLines (.ofTable table policy) lines).issues) ∧
      reported.Pairwise (fun a b => a.1 < b.1 ∨ a.1 = b.1 ∧ a.2.start < b.2.start) ∧
      ∀ line token, (line, token) ∈ reported ↔ UndefinedAt table lines line token := by
  refine ⟨undefinedPlaces (.ofTable table policy) lines, ?_, pairwise_undefinedPlaces _ _,
    fun line token => mem_undefinedPlaces_iff⟩
  rw [findingsOf_checkLines, List.forall₂_map_right_iff, List.forall₂_same]
  intro place _
  exact ⟨rfl, Diagnostic.value?_ofCode ..⟩

end AsmLint
