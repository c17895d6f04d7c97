import AsmLint.Command.Arguments
import AsmLint.Command.Listing
import AsmLint.Command.Reporting

/-! Runs a command on texts that are already read. A file that cannot be read as text is given as
nothing. The result is what the command prints and the status it ends with. -/

namespace AsmLint

structure Outcome where
  status : Nat
  output : String
  notes : List String
deriving DecidableEq, Repr

inductive CommandError where
  | unreadableSource (file : String)
  | unreadableTable (file : String)
  | invalidTable (file : String)
  | unknownMnemonic (mnemonic table : String)
deriving DecidableEq, Repr

def CommandError.message : CommandError → String
  | .unreadableSource file => "failed to read " ++ file
  | .unreadableTable file => "failed to read rule tables " ++ file
  | .invalidTable file => "failed to load rule tables " ++ file
  | .unknownMnemonic mnemonic table =>
    "'" ++ mnemonic ++ "' is not an instruction or directive of the " ++ table ++ " grammar"

def joinLines (lines : List String) : String := String.join (lines.map (· ++ "\n"))

namespace Outcome

def printed (status : Nat) (output : String) : Outcome := ⟨status, output, []⟩

def json (status : Nat) (value : Json) : Outcome := printed status (value.pretty ++ "\n")

def sortedJson (status : Nat) (value : Json) : Outcome := json status value.sortKeys

def lines (status : Nat) (lines : List String) : Outcome := printed status (joinLines lines)

/-- Only the first line of an error is shown. -/
def failed (error : CommandError) : Outcome :=
  let line := (splitLines ("Error: " ++ error.message).toList).headD []
  ⟨1, "", [String.ofList line]⟩

end Outcome

abbrev Files := String → Option String

def Files.source (files : Files) (file : String) : Except CommandError String :=
  match files file with
  | some text => .ok text
  | none => .error (.unreadableSource file)

def Files.grammar (files : Files) (choice : GrammarChoice) : Except CommandError Grammar :=
  match choice.tables with
  | none => .ok choice.dialect.grammar
  | some file =>
    match files file with
    | none => .error (.unreadableTable file)
    | some text =>
      match RuleTable.read? text with
      | some table => .ok (Grammar.ofTable table choice.dialect.policy)
      | none => .error (.invalidTable file)

def runLint (files : Files) (format : OutputFormat) (file : String) (choice : GrammarChoice) :
    Except CommandError Outcome := do
  let text ← files.source file
  let grammar ← files.grammar choice
  let report := validate grammar text
  let status := if report.ok then 0 else 1
  match format with
  | .json => return .sortedJson status report.toJson
  | .pretty => return ⟨status, "", report.lines file text.toList⟩

def runSymbols (files : Files) (format : OutputFormat) (file : String) (choice : GrammarChoice) :
    Except CommandError Outcome := do
  let text ← files.source file
  let grammar ← files.grammar choice
  let table := SymbolTable.build grammar (splitLines text.toList)
  match format with
  | .json => return .json 0 table.toJson
  | .pretty => return .lines 0 table.lines

def runExplain (format : OutputFormat) (id : String) : Outcome :=
  match format with
  | .json => .sortedJson 0 (explanationJson id)
  | .pretty => .lines 0 [explanationLine id]

def runRules (files : Files) (format : OutputFormat) (mnemonic : String) (choice : GrammarChoice) :
    Except CommandError Outcome := do
  let grammar ← files.grammar choice
  match grammar.lookup mnemonic, format with
  | none, _ => throw (.unknownMnemonic mnemonic grammar.table.name)
  | some usage, .json => return .sortedJson 0 (usage.toJson choice.dialect)
  | some usage, .pretty => return .lines 0 (usage.lines choice.dialect)

def runTables (files : Files) (format : OutputFormat) (choice : GrammarChoice) :
    Except CommandError Outcome := do
  let grammar ← files.grammar choice
  let status := if grammar.sound then 0 else 1
  match format with
  | .json => return .sortedJson status (grammar.toJson choice.dialect)
  | .pretty => return .lines status grammar.lines

def Request.files : Request → List String
  | .lint file grammar | .symbols file grammar => file :: grammar.tables.toList
  | .explain _ => []
  | .rules _ grammar | .tables grammar => grammar.tables.toList

def Request.run (request : Request) (format : OutputFormat) (files : Files) : Outcome :=
  let result := match request with
    | .lint file grammar => runLint files format file grammar
    | .symbols file grammar => runSymbols files format file grammar
    | .explain id => .ok (runExplain format id)
    | .rules mnemonic grammar => runRules files format mnemonic grammar
    | .tables grammar => runTables files format grammar
  match result with
  | .ok outcome => outcome
  | .error error => .failed error

def usageLines : List String :=
  ["Usage: z80lint [OPTIONS] <COMMAND>",
    "",
    "Commands:",
    "  lint FILE       check an assembly file",
    "  symbols FILE    print the symbol table of an assembly file",
    "  explain ID      explain a diagnostic",
    "  rules MNEMONIC  show the usage rules of a mnemonic",
    "  tables          check a rule table",
    "",
    "Options:",
    "  --output pretty|json",
    "  --log-level error|warn|info|debug|trace",
    "  --dialect z80|z80-legacy",
    "  --tables FILE"]

def Stop.outcome : Stop → Outcome
  | .help => .lines 0 usageLines
  | .version => .lines 0 ["z80lint 0.1.0"]
  | .refused => ⟨2, "", []⟩

def runCommand (terminal : Bool) (arguments : List String) (files : Files) : Outcome :=
  match Invocation.read terminal arguments with
  | .ok invocation => invocation.request.run invocation.output files
  | .error stop => stop.outcome

end AsmLint
