import AsmLint.Check.Document
import AsmLint.Text.Decimal

/-! Findings for a reader at a terminal. Each takes four lines: the message, the place, a short
label for the place, and the explanation of its code. -/

namespace AsmLint

def characterRange (index : LineIndex) (span : Span) : Extent :=
  let start := index.offset span.line span.start
  ⟨start, max start (index.offset span.line span.stop)⟩

namespace Diagnostic

def heading : Severity → String
  | .error => "Error"
  | .warn => "Warning"
  | .info => "Advice"

def label (diagnostic : Diagnostic) : String :=
  let value key := diagnostic.context.bind fun context => context.get? key
  match (value "reason").filter (· != ""), value "name", value "first_line" with
  | some reason, _, _ => reason
  | none, some name, some first =>
    "'" ++ name ++ "' first defined on line " ++
      Nat.repr ((decimal? first.toList).getD 0 + 1)
  | none, some name, none => "'" ++ name ++ "' is not defined"
  | none, none, _ => diagnostic.message

def lines (file : String) (text : List Char) (diagnostic : Diagnostic) : List String :=
  match diagnostic.span with
  | some span =>
    let range := characterRange (LineIndex.ofText text) span
    let (line, column) := screenPosition 0 0 range.start text
    ["[" ++ diagnostic.id ++ "] " ++ heading diagnostic.severity ++ ": " ++ diagnostic.message,
      "at " ++ file ++ ":" ++ Nat.repr (line + 1) ++ ":" ++ Nat.repr (column + 1),
      "label " ++ diagnostic.label] ++
    (diagnostic.explanation?.map fun explanation => "help " ++ explanation).toList
  | none =>
    diagnostic.summary ::
      (diagnostic.explanation?.map fun explanation => "  = help: " ++ explanation).toList

end Diagnostic

def countText (count : Nat) (singular plural : String) : List String :=
  if count = 0 then []
  else [Nat.repr count ++ " " ++ (if count = 1 then singular else plural)]

def tally (issues : List Diagnostic) : List String :=
  let count severity := (issues.filter fun issue => issue.severity == severity).length
  let parts := countText (count .error) "error" "errors" ++
    countText (count .warn) "warning" "warnings" ++ countText (count .info) "info" "info"
  if parts.isEmpty then [] else [String.intercalate ", " parts]

def Report.lines (report : Report) (file : String) (text : List Char) : List String :=
  report.issues.flatMap (Diagnostic.lines file text) ++ tally report.issues ++
    (if report.ok then ["lint ok"] else [])

end AsmLint
