import AsmLint.Collection.NameSet
import AsmLint.Grammar
import AsmLint.Source.Nesting
import AsmLint.Symbols.Definition

/-! Symbol tables. Labels and variables keep the order of their first definitions and remember every
place where they are defined; names that are only declared are known but never counted. Names are
compared letter by letter, case included. -/

namespace AsmLint

inductive SymbolKind where
  | label
  | var
deriving DecidableEq, Repr

def SymbolKind.describe : SymbolKind → String
  | .label => "label"
  | .var => "variable"

structure Site where
  line : Nat
  column : Nat
deriving DecidableEq, Repr

def Site.upTo (a b : Site) : Bool := a.line < b.line || (a.line == b.line && a.column ≤ b.column)

structure SymbolRecord where
  name : String
  kind : SymbolKind
  definitions : List Site
deriving DecidableEq, Repr

structure Registry where
  records : List SymbolRecord
  positions : Dict Nat
deriving DecidableEq

namespace Registry

def empty : Registry := ⟨[], Dict.empty⟩

def addSite (site : Site) (record : SymbolRecord) : SymbolRecord :=
  { record with definitions := record.definitions ++ [site] }

def define (registry : Registry) (kind : SymbolKind) (name : String) (site : Site) : Registry :=
  match registry.positions.get? name with
  | some position => { registry with records := registry.records.modify position (addSite site) }
  | none =>
    { records := registry.records ++ [⟨name, kind, [site]⟩]
      positions := registry.positions.insert name registry.records.length }

def find? (registry : Registry) (name : String) : Option SymbolRecord :=
  (registry.positions.get? name).bind fun position => registry.records[position]?

end Registry

structure SymbolTable where
  labels : Registry
  vars : Registry
  declarations : NameSet
  known : NameSet
  nesting : Nesting
deriving DecidableEq

namespace SymbolTable

def empty : SymbolTable := ⟨.empty, .empty, .empty, .empty, .zero⟩

def define (table : SymbolTable) (kind : SymbolKind) (line : Nat) (token : Token) : SymbolTable :=
  let site := ⟨line, token.start⟩
  let known := table.known.insert token.name
  match kind with
  | .label => { table with labels := table.labels.define .label token.name site, known }
  | .var => { table with vars := table.vars.define .var token.name site, known }

def declare (table : SymbolTable) (token : Token) : SymbolTable :=
  { table with
    declarations := table.declarations.insert token.name
    known := table.known.insert token.name }

def outside (quoted : List Extent) (token : Option Token) : Option Token :=
  token.filter fun token => !token.inside quoted

def apply (change : SymbolTable → Token → SymbolTable) (table : SymbolTable) :
    Option Token → SymbolTable
  | some token => change table token
  | none => table

/-- Takes one line into the table. The nesting of the line itself decides whether it lies in a
block. -/
def observe (grammar : Grammar) (table : SymbolTable) (line : Nat) (raw : List Char) :
    SymbolTable :=
  let code := codePart raw
  let quoted := literals code
  let nesting := table.nesting.observe code
  let inBlock := decide (0 < nesting.braceDepth)
  let table := { table with nesting }
  let table := apply (define · .label line ·) table (outside quoted (labelDefinition? code))
  let table :=
    apply (define · .var line ·) table (outside quoted (variableDefinition? inBlock code))
  apply declare table (outside quoted (declaration? grammar.isDeclarationKeyword code))

def build (grammar : Grammar) (lines : List (List Char)) : SymbolTable :=
  lines.zipIdx.foldl (fun table (raw, line) => observe grammar table line raw) empty

def contains (table : SymbolTable) (name : String) : Bool := table.known.contains name

def repeats (record : SymbolRecord) : List (SymbolRecord × Site) :=
  record.definitions.tail.map fun site => (record, site)

def redefinitions (table : SymbolTable) : List (SymbolRecord × Site) :=
  ((table.labels.records ++ table.vars.records).flatMap repeats).mergeSort
    fun a b => a.2.upTo b.2

end SymbolTable

end AsmLint
