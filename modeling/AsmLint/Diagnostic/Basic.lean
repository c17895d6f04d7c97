import AsmLint.Diagnostic.Code

/-! Diagnostics: a finding with its place, its message and the facts it was made from. -/

namespace AsmLint

/-- A stretch of one line; lines and columns count from zero, and `stop` is past the last
character. -/
structure Span where
  line : Nat
  start : Nat
  stop : Nat
deriving DecidableEq, Repr

structure ReversedSpan where
  start : Nat
  stop : Nat
deriving DecidableEq, Repr

def ReversedSpan.message (error : ReversedSpan) : String :=
  "Span end (" ++ Nat.repr error.stop ++ ") < start (" ++ Nat.repr error.start ++ ")"

namespace Span

def make (line start stop : Nat) : Except ReversedSpan Span :=
  if stop < start then .error ⟨start, stop⟩ else .ok ⟨line, start, stop⟩

def length (span : Span) : Nat := span.stop - span.start

def isEmpty (span : Span) : Bool := span.start == span.stop

end Span

structure Diagnostic where
  id : String
  severity : Severity
  message : String
  span : Option Span
  source : String
  context : Option (Dict String)
deriving DecidableEq

namespace Diagnostic

def toolName : String := "z80lint"

def make (id : String) (severity : Severity) (message : String) (span : Option Span) : Diagnostic :=
  ⟨id, severity, message, span, toolName, none⟩

def ofCode (code : Code) (wording : Wording) (span : Span) (context : List (String × String)) :
    Diagnostic :=
  let values := Dict.ofList context
  { make code.id code.severity (code.message wording values) (some span) with
    context := some values }

def isError (diagnostic : Diagnostic) : Bool := diagnostic.severity == .error

def summary (diagnostic : Diagnostic) : String :=
  diagnostic.severity.name ++ "[" ++ diagnostic.id ++ "]: " ++ diagnostic.message

def explanation? (diagnostic : Diagnostic) : Option String := explain? diagnostic.id

end Diagnostic

end AsmLint
