import AsmLint.Dialect
import AsmLint.Proofs.LineIndex
import AsmLint.Proofs.LongestRun
import Mathlib.Data.List.Forall2

/-! Line ends and comments are not looked at. A report is made from the code parts of the lines
alone, and these stay what they are when carriage returns are put before the line feeds of a text
and when comments are added or replaced. Nothing is said here about a text with carriage returns of
its own: one inside a line is a blank of its code. -/

namespace AsmLint

section CodeParts

theorem codePart_append_comment {code comment : List Char} {marker : Char}
    (plain : AllIn (fun c => !isCommentMarker c) code) (marks : isCommentMarker marker = true) :
    codePart (code ++ marker :: comment) = code := by
  have run : LongestRun (fun c => !isCommentMarker c) (code ++ marker :: comment) code
      (marker :: comment) := ⟨rfl, plain, by simp [marks]⟩
  exact run.takeWhile_eq

theorem allIn_codePart (line : List Char) :
    AllIn (fun c => !isCommentMarker c) (codePart line) :=
  (longestRun_takeWhile _ line).inside

theorem codePart_codePart (line : List Char) : codePart (codePart line) = codePart line := by
  have run : LongestRun (fun c => !isCommentMarker c) (codePart line) (codePart line) [] :=
    ⟨by simp, allIn_codePart line, by simp⟩
  exact run.takeWhile_eq

theorem build_map_codePart (grammar : Grammar) (lines : List (List Char)) :
    SymbolTable.build grammar (lines.map codePart) = SymbolTable.build grammar lines := by
  unfold SymbolTable.build SymbolTable.observe
  rw [List.zipIdx_map, List.foldl_map]
  simp only [Prod.map_fst, Prod.map_snd, id_eq, codePart_codePart]

theorem validateLines_map_codePart (grammar : Grammar) (lines : List (List Char)) :
    validateLines grammar (lines.map codePart) = validateLines grammar lines := by
  have lineWise (symbols : SymbolTable) : checkLines grammar symbols (lines.map codePart) =
      checkLines grammar symbols lines := by
    unfold checkLines checkLine
    rw [List.zipIdx_map, List.flatMap_map]
    simp only [Prod.map_fst, Prod.map_snd, id_eq, codePart_codePart]
  rw [validateLines, validateLines, build_map_codePart, lineWise]

theorem validateLines_congr (grammar : Grammar) {lines others : List (List Char)}
    (same : lines.map codePart = others.map codePart) :
    validateLines grammar lines = validateLines grammar others := by
  rw [← validateLines_map_codePart, same, validateLines_map_codePart]

end CodeParts

section Returns

def withReturns (text : List Char) : List Char :=
  text.flatMap fun c => if c = '\n' then ['\r', '\n'] else [c]

theorem dropCarriageReturn_cons {c : Char} (other : c ≠ '\r') (line : List Char) :
    dropCarriageReturn (c :: line) = c :: dropCarriageReturn line := by
  cases line with
  | nil => simp [dropCarriageReturn, other]
  | cons d line =>
    rw [dropCarriageReturn, dropCarriageReturn, List.getLast?_cons_cons]
    split <;> rfl

theorem splitLines_cons {c : Char} (other : c ≠ '\r') (rest : List Char) :
    splitLines (c :: rest) =
      if c = '\n' then [] :: splitLines rest else (splitLines rest).modifyHead (c :: ·) := by
  change (textLines (c :: rest)).map dropCarriageReturn = _
  rw [textLines_cons]
  split
  case isTrue lineFeed => rfl
  case isFalse inside =>
    rw [splitLines, ← textLines]
    cases textLines rest with
    | nil => rfl
    | cons line lines => simp [dropCarriageReturn_cons other]

theorem splitLines_return_lineFeed (rest : List Char) :
    splitLines ('\r' :: '\n' :: rest) = [] :: splitLines rest := rfl

theorem splitLines_withReturns {text : List Char} (noReturns : '\r' ∉ text) :
    splitLines (withReturns text) = splitLines text := by
  induction text with
  | nil => rfl
  | cons c rest ih =>
    have other : c ≠ '\r' := (List.ne_of_not_mem_cons noReturns).symm
    rw [splitLines_cons other, ← ih (List.not_mem_of_not_mem_cons noReturns), withReturns,
      List.flatMap_cons]
    split
    case isTrue lineFeed => exact splitLines_return_lineFeed _
    case isFalse inside =>
      rw [List.singleton_append, splitLines_cons other, if_neg inside]
      rfl

theorem splitLines_eq_textLines {text : List Char} (noReturns : '\r' ∉ text) :
    splitLines text = textLines text := by
  induction text with
  | nil => rfl
  | cons c rest ih =>
    rw [splitLines_cons (List.ne_of_not_mem_cons noReturns).symm, textLines_cons,
      ih (List.not_mem_of_not_mem_cons noReturns)]

theorem mem_textLines_iff {text : List Char} {c : Char} (inside : c ≠ '\n') :
    c ∈ text ↔ ∃ line ∈ textLines text, c ∈ line := by
  induction text with
  | nil => simp [textLines, splitBy]
  | cons d rest ih =>
    rw [textLines_cons]
    split
    case isTrue lineFeed => simp [lineFeed, inside, ih]
    case isFalse plain =>
      obtain ⟨line, lines, found⟩ := List.exists_cons_of_ne_nil (splitBy_ne_nil (· == '\n') rest)
      rw [← textLines] at found
      simp [ih, found, or_assoc]

end Returns

/-- The other line has the code of the line. Its comment is the same one, or a new one that starts
with a marker and does not leave the line; the line may have had none. -/
inductive Recommented (line : List Char) : List Char → Prop where
  | same : Recommented line line
  | replaced {marker : Char} {comment : List Char} : isCommentMarker marker = true →
      '\n' ∉ comment → '\r' ∉ comment → Recommented line (codePart line ++ marker :: comment)

theorem Recommented.codePart_eq {line other : List Char} (recommented : Recommented line other) :
    codePart other = codePart line := by
  cases recommented with
  | same => rfl
  | replaced marks _ _ => exact codePart_append_comment (allIn_codePart line) marks

theorem Recommented.noReturns {line other : List Char} (recommented : Recommented line other)
    (noReturns : '\r' ∉ line) : '\r' ∉ other := by
  cases recommented with
  | same => exact noReturns
  | @replaced marker comment marks _ noReturn =>
    have kept : '\r' ∉ codePart line := fun member =>
      noReturns ((List.takeWhile_prefix _).subset member)
    have markerOther : '\r' ≠ marker := by
      rintro rfl
      simp [isCommentMarker] at marks
    simp [kept, markerOther, noReturn]

def RecommentedText (text other : String) : Prop :=
  List.Forall₂ Recommented (textLines text.toList) (textLines other.toList)

theorem RecommentedText.noReturns {text other : String} (recommented : RecommentedText text other)
    (noReturns : '\r' ∉ text.toList) : '\r' ∉ other.toList := by
  rw [mem_textLines_iff (by decide)] at noReturns ⊢
  rintro ⟨line, listed, inLine⟩
  obtain ⟨number, bound, rfl⟩ := List.getElem_of_mem listed
  have lengths := recommented.length_eq
  have pair := (List.forall₂_iff_get.1 recommented).2 number (lengths ▸ bound) bound
  exact pair.noReturns (fun member => noReturns ⟨_, List.getElem_mem _, member⟩) inLine

/-- A text without carriage returns has the report of every text that has other comments, and of
every such text with carriage returns before its line feeds. -/
theorem report_ignores_ends_and_comments (grammar : Grammar) {text other : String}
    (noReturns : '\r' ∉ text.toList) (recommented : RecommentedText text other) :
    validate grammar other = validate grammar text ∧
      validate grammar (String.ofList (withReturns other.toList)) = validate grammar text := by
  have otherNone := recommented.noReturns noReturns
  have codes : (splitLines other.toList).map codePart = (splitLines text.toList).map codePart := by
    rw [splitLines_eq_textLines noReturns, splitLines_eq_textLines otherNone]
    apply List.forall₂_eq_eq_eq ▸ List.forall₂_map_left_iff.2 (List.forall₂_map_right_iff.2 _)
    exact recommented.flip.imp fun _ _ pair => pair.codePart_eq
  refine ⟨validateLines_congr grammar codes, ?_⟩
  rw [validate, String.toList_ofList, splitLines_withReturns otherNone]
  exact validateLines_congr grammar codes

theorem report_with_other_ends_and_comments :
    '\r' ∉ "a: ; one\n\tJP b\n".toList ∧
      validate z80Grammar "a: # \"\n\tJP b;;\n" = validate z80Grammar "a: ; one\n\tJP b\n" ∧
      validate z80Grammar "a: # \"\r\n\tJP b;;\r\n" =
        validate z80Grammar "a: ; one\n\tJP b\n" := by
  have noReturns : '\r' ∉ "a: ; one\n\tJP b\n".toList := by decide
  have recommented : RecommentedText "a: ; one\n\tJP b\n" "a: # \"\n\tJP b;;\n" := by
    have first : Recommented "a: ; one".toList "a: # \"".toList :=
      @Recommented.replaced _ '#' " \"".toList (by decide) (by decide) (by decide)
    have second : Recommented "\tJP b".toList "\tJP b;;".toList :=
      @Recommented.replaced _ ';' ";".toList (by decide) (by decide) (by decide)
    exact .cons first (.cons second (.cons .same .nil))
  have ends : withReturns "a: # \"\n\tJP b;;\n".toList = "a: # \"\r\n\tJP b;;\r\n".toList := by
    decide
  have ⟨commented, returned⟩ := report_ignores_ends_and_comments z80Grammar noReturns recommented
  rw [ends, String.ofList_toList] at returned
  exact ⟨noReturns, commented, returned⟩

end AsmLint
