import AsmLint.Dialect
import AsmLint.Text.Decimal

/-! The arguments of the command line. They are read from left to right, and the first word that
ends the reading decides: a request for help or for the version, or an argument that is refused. -/

namespace AsmLint

inductive OutputFormat where
  | pretty
  | json
deriving DecidableEq, Repr

inductive LogLevel where
  | error
  | warn
  | info
  | debug
  | trace
deriving DecidableEq, Repr

structure GrammarChoice where
  dialect : Dialect
  tables : Option String
deriving DecidableEq, Repr

inductive Request where
  | lint (file : String) (grammar : GrammarChoice)
  | symbols (file : String) (grammar : GrammarChoice)
  | explain (id : String)
  | rules (mnemonic : String) (grammar : GrammarChoice)
  | tables (grammar : GrammarChoice)
deriving DecidableEq, Repr

structure Invocation where
  request : Request
  output : OutputFormat
  logLevel : LogLevel
deriving DecidableEq, Repr

inductive Stop where
  | help
  | version
  | refused
deriving DecidableEq, Repr

namespace OutputFormat

def ofName? : String → Option OutputFormat
  | "pretty" => some .pretty
  | "json" => some .json
  | _ => none

end OutputFormat

namespace LogLevel

def all : List LogLevel := [.error, .warn, .info, .debug, .trace]

def name : LogLevel → String
  | .error => "error"
  | .warn => "warn"
  | .info => "info"
  | .debug => "debug"
  | .trace => "trace"

def dropPlus : List Char → List Char
  | '+' :: rest => rest
  | text => text

def ofName? (name : String) : Option LogLevel :=
  match decimal? (dropPlus name.toList) with
  | some 0 => none
  | some (number + 1) => all[number]?
  | none => all.find? fun level => sameNameIgnoringCase level.name name

end LogLevel

structure Options where
  output : Option OutputFormat
  logLevel : Option LogLevel
  dialect : Option Dialect
  tables : Option String
deriving DecidableEq, Repr

namespace Options

def empty : Options := ⟨none, none, none, none⟩

def set (options : Options) (name value : String) : Except Stop Options :=
  match name, options with
  | "output", { output := none, .. } =>
    match OutputFormat.ofName? value with
    | some format => .ok { options with output := some format }
    | none => .error .refused
  | "log-level", { logLevel := none, .. } =>
    match LogLevel.ofName? value with
    | some level => .ok { options with logLevel := some level }
    | none => .error .refused
  | "dialect", { dialect := none, .. } =>
    match Dialect.ofName value with
    | .ok dialect => .ok { options with dialect := some dialect }
    | .error _ => .error .refused
  | "tables", { tables := none, .. } => .ok { options with tables := some value }
  | _, _ => .error .refused

def grammar (options : Options) : GrammarChoice := ⟨options.dialect.getD .z80, options.tables⟩

end Options

inductive Argument where
  | long (name : String) (value : Option String)
  | short (letters : List Char)
  | word (text : String)
deriving DecidableEq, Repr

namespace Argument

def ofText (text : String) : Argument :=
  match text.toList with
  | '-' :: '-' :: body =>
    let name := String.ofList (body.takeWhile (· != '='))
    match body.dropWhile (· != '=') with
    | _ :: value => .long name (some (String.ofList value))
    | [] => .long name none
  | '-' :: letter :: letters => .short (letter :: letters)
  | _ => .word text

end Argument

inductive CommandName where
  | lint
  | symbols
  | explain
  | rules
  | tables
deriving DecidableEq, Repr

namespace CommandName

def all : List CommandName := [.lint, .symbols, .explain, .rules, .tables]

def name : CommandName → String
  | .lint => "lint"
  | .symbols => "symbols"
  | .explain => "explain"
  | .rules => "rules"
  | .tables => "tables"

def ofName? (name : String) : Option CommandName := all.find? fun command => command.name == name

def takesGrammar (command : CommandName) : Bool := command != .explain

def arity : CommandName → Nat
  | .tables => 0
  | _ => 1

end CommandName

def globalOptions : List String := ["output", "log-level"]

def commandOptions (command : CommandName) : List String :=
  if command.takesGrammar then globalOptions ++ ["dialect", "tables"] else globalOptions

/-- The value of an option written as the next argument must not look like an option. -/
def looksLikeValue (text : String) : Bool :=
  match Argument.ofText text with
  | .word _ => true
  | _ => false

def readFront (options : Options) (arguments : List String) :
    Except Stop (Options × CommandName × List String) :=
  match arguments with
  | [] => .error .refused
  | first :: rest =>
    match Argument.ofText first with
    | .long "help" none => .error .help
    | .long "version" none => .error .version
    | .long name (some value) =>
      if globalOptions.contains name then do readFront (← options.set name value) rest
      else .error .refused
    | .long name none =>
      if globalOptions.contains name then
        match rest with
        | value :: rest =>
          if looksLikeValue value then do readFront (← options.set name value) rest
          else .error .refused
        | [] => .error .refused
      else .error .refused
    | .short ('h' :: _) => .error .help
    | .short ('V' :: _) => .error .version
    | .short _ => .error .refused
    | .word "help" =>
      if rest.isEmpty || ("help" :: CommandName.all.map CommandName.name).any (rest == [·]) then
        .error .help
      else .error .refused
    | .word name =>
      match CommandName.ofName? name with
      | some command => .ok (options, command, rest)
      | none => .error .refused

def readRest (command : CommandName) (options : Options) (words : List String)
    (arguments : List String) : Except Stop (Options × List String) :=
  match arguments with
  | [] => .ok (options, words)
  | "--" :: rest => .ok (options, words ++ rest)
  | first :: rest =>
    match Argument.ofText first with
    | .long "help" none => .error .help
    | .long name (some value) =>
      if (commandOptions command).contains name then do
        readRest command (← options.set name value) words rest
      else .error .refused
    | .long name none =>
      if (commandOptions command).contains name then
        match rest with
        | value :: rest =>
          if looksLikeValue value then do
            readRest command (← options.set name value) words rest
          else .error .refused
        | [] => .error .refused
      else .error .refused
    | .short ('h' :: _) => .error .help
    | .short _ => .error .refused
    | .word word =>
      if words.length < command.arity then readRest command options (words ++ [word]) rest
      else .error .refused

def Request.make? : CommandName → GrammarChoice → List String → Option Request
  | .lint, grammar, [file] => some (.lint file grammar)
  | .symbols, grammar, [file] => some (.symbols file grammar)
  | .explain, _, [id] => some (.explain id)
  | .rules, grammar, [mnemonic] => some (.rules mnemonic grammar)
  | .tables, grammar, [] => some (.tables grammar)
  | _, _, _ => none

/-- An option after the command takes precedence over the same one in front of it. The output is
JSON unless it is asked for otherwise or, as the caller says, a terminal shows it. -/
def Invocation.read (terminal : Bool) (arguments : List String) : Except Stop Invocation := do
  let (front, command, arguments) ← readFront .empty arguments
  let (options, words) ← readRest command .empty [] arguments
  match Request.make? command options.grammar words with
  | some request => .ok {
      request
      output := (options.output.or front.output).getD (if terminal then .pretty else .json)
      logLevel := (options.logLevel.or front.logLevel).getD .warn }
  | none => .error .refused

end AsmLint
