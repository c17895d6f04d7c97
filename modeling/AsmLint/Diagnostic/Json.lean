import AsmLint.Diagnostic.Basic
import AsmLint.Table.Json

/-! Diagnostics as JSON. A missing place or context is left out when writing; when reading a record
by names, a missing field and a null both stand for it. -/

namespace AsmLint

namespace Severity

def toJson (severity : Severity) : Json := .string severity.name

def ofJson? (json : Json) : Option Severity := json.asTag?.bind ofName?

end Severity

namespace Span

def toJson (span : Span) : Json :=
  .object [("line", .ofNat span.line), ("start", .ofNat span.start), ("end", .ofNat span.stop)]

def ofParts? (line start stop : Json) : Option Span := do
  return ⟨← line.asWord?, ← start.asWord?, ← stop.asWord?⟩

def ofJson? : Json → Option Span
  | .list [line, start, stop] => ofParts? line start stop
  | .object members =>
    if Json.distinctFields ["line", "start", "end"] members then do
      ofParts? (← Json.member? members "line") (← Json.member? members "start")
        (← Json.member? members "end")
    else none
  | _ => none

end Span

namespace Diagnostic

def optionalMember {α : Type} (name : String) (encode : α → Json) : Option α → List (String × Json)
  | some value => [(name, encode value)]
  | none => []

def toJson (diagnostic : Diagnostic) : Json :=
  .object (
    [("id", .string diagnostic.id),
      ("severity", diagnostic.severity.toJson),
      ("message", .string diagnostic.message)] ++
    optionalMember "span" Span.toJson diagnostic.span ++
    [("source", .string diagnostic.source)] ++
    optionalMember "context" (Dict.toJson Json.string) diagnostic.context)

def fields : List String := ["id", "severity", "message", "span", "source", "context"]

def ofParts? (id severity message span source context : Json) : Option Diagnostic := do
  return {
    id := ← id.asString?
    severity := ← Severity.ofJson? severity
    message := ← message.asString?
    span := ← span.asOption? Span.ofJson?
    source := ← source.asString?
    context := ← context.asOption? (Json.asDict? Json.asString?) }

def ofJson? : Json → Option Diagnostic
  | .list [id, severity, message, span, source, context] =>
    ofParts? id severity message span source context
  | .object members =>
    if Json.distinctFields fields members then do
      ofParts? (← Json.member? members "id") (← Json.member? members "severity")
        (← Json.member? members "message") ((Json.member? members "span").getD .null)
        (← Json.member? members "source") ((Json.member? members "context").getD .null)
    else none
  | _ => none

def read? (text : String) : Option Diagnostic := (Json.read text).bind ofJson?

def write (diagnostic : Diagnostic) : String := diagnostic.toJson.compact

end Diagnostic

end AsmLint
