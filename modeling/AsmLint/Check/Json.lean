import AsmLint.Check.Document
import AsmLint.Diagnostic.Json

/-! Reports as JSON. -/

namespace AsmLint

def Report.toJson (report : Report) : Json :=
  .object [("ok", .bool report.ok), ("issues", .list (report.issues.map Diagnostic.toJson))]

end AsmLint
