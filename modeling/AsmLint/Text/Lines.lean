import AsmLint.Text.Space

/-! Lines of a document and positions in it. A line feed ends a line; a carriage return right before
it belongs to the line end when the document is cut into lines, and to the line when offsets are
counted. Lines, columns and offsets count characters from zero. -/

namespace AsmLint

def dropCarriageReturn (line : List Char) : List Char :=
  if line.getLast? = some '\r' then line.dropLast else line

def splitLines (text : List Char) : List (List Char) :=
  (splitBy (· == '\n') text).map dropCarriageReturn

structure LineExtent where
  start : Nat
  length : Nat
deriving DecidableEq, Repr

structure LineIndex where
  lines : List LineExtent
deriving DecidableEq, Repr

namespace LineIndex

def scan (start length : Nat) : List Char → List LineExtent
  | [] => [⟨start, length⟩]
  | c :: rest =>
    if c = '\n' then ⟨start, length⟩ :: scan (start + length + 1) 0 rest
    else scan start (length + 1) rest

def ofText (text : List Char) : LineIndex := ⟨scan 0 0 text⟩

def count (index : LineIndex) : Nat := index.lines.length

def start? (index : LineIndex) (line : Nat) : Option Nat := (index.lines[line]?).map (·.start)

/-- A line past the end stands for the last line, a column past the end for the end of its line. -/
def offset (index : LineIndex) (line column : Nat) : Nat :=
  match index.lines[min line (index.count - 1)]? with
  | some extent => extent.start + min column extent.length
  | none => 0

theorem scan_ne_nil (start length : Nat) (text : List Char) : scan start length text ≠ [] := by
  induction text generalizing start length with
  | nil => simp [scan]
  | cons c rest ih =>
    simp only [scan]
    split
    · simp
    · exact ih _ _

theorem count_pos (text : List Char) : 0 < (ofText text).count :=
  List.length_pos_iff.2 (scan_ne_nil 0 0 text)

end LineIndex

def breaksLine (c : Char) : Bool :=
  c == '\n' || c == '\r' || c == '\x0b' || c == '\x0c' || c == '\u0085' || c == '\u2028' ||
    c == '\u2029'

/-- Line and column, both from zero, of the character at `offset` as a terminal numbers them. A
carriage return and the line feed after it end one line, and a break at the very end of the text
starts no further line. -/
def screenPosition (line column : Nat) : (offset : Nat) → List Char → Nat × Nat
  | 0, _ => (line, column)
  | _ + 1, [] => (line, column)
  | _ + 1, [_] => (line, column + 1)
  | offset + 1, c :: next :: rest =>
    if breaksLine c && !(c == '\r' && next == '\n') then
      screenPosition (line + 1) 0 offset (next :: rest)
    else screenPosition line (column + 1) offset (next :: rest)

end AsmLint
