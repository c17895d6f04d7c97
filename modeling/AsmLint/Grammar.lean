import AsmLint.Rule.Basic
import AsmLint.Table.Z80

/-! Grammars: a rule table with every rule compiled under an operand policy. Mnemonics and keywords
are looked up letter case aside. -/

namespace AsmLint

/-- The usage rules of one mnemonic in declared order. A rule that does not compile keeps its
place. -/
structure Usage where
  mnemonic : String
  rules : List (Except RuleError Rule)

structure Grammar where
  table : RuleTable
  policy : OperandPolicy
  usages : Dict Usage
  mnemonics : NameSet
  keywords : NameSet
  declarationKeywords : List String

def Usage.compile (legend : Legend) (policy : OperandPolicy) (entry : String × List String) :
    Usage :=
  ⟨upperName entry.1, entry.2.map (Rule.compile legend policy)⟩

/-- Head words of the rules that compiled; a head that is itself a placeholder names no mnemonic. -/
def Usage.heads (usage : Usage) : List String :=
  usage.rules.filterMap fun rule =>
    match rule with
    | .ok rule => if rule.head.toList.head? = some '%' then none else some rule.head
    | .error _ => none

namespace Grammar

/-- Instructions are entered after directives, so of two entries with one name the instruction is
kept, and of two spellings of one key the later. -/
def ofTable (table : RuleTable) (policy : OperandPolicy) : Grammar :=
  let usages := (table.directives.entries ++ table.instructions.entries).map
    (Usage.compile table.legend policy)
  { table
    policy
    usages := Dict.ofList (usages.map fun usage => (usage.mnemonic, usage))
    mnemonics := NameSet.ofList (usages.flatMap fun usage => usage.mnemonic :: usage.heads)
    keywords := upperSet table.legendTokens
    declarationKeywords := table.declarationKeywords.map upperName }

def stem? (word : String) : Option String :=
  if word.toList.contains '.' then some (String.ofList (word.toList.takeWhile (· != '.'))) else none

/-- A word with a width falls back to the entry of its stem. -/
def lookup (grammar : Grammar) (word : String) : Option Usage :=
  let key := upperName word
  (grammar.usages.get? key).or ((stem? key).bind grammar.usages.get?)

def isMnemonic (grammar : Grammar) (word : String) : Bool :=
  grammar.mnemonics.contains (upperName word)

def isKeyword (grammar : Grammar) (word : String) : Bool :=
  grammar.keywords.contains (upperName word)

def isDeclarationKeyword (grammar : Grammar) (word : String) : Bool :=
  grammar.declarationKeywords.any fun keyword => sameNameIgnoringCase keyword word

end Grammar

end AsmLint
