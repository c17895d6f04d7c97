import AsmLint.Proofs.Nesting
import AsmLint.Proofs.Registry
import Mathlib.Data.List.Basic

/-! The symbol table of a document against its lines. The definitions of a document are listed line
by line, each line giving at most one; the table holds the registries of these definitions and knows
exactly the names that some line introduces. -/

namespace AsmLint

structure Definition where
  kind : SymbolKind
  line : Nat
  token : Token
deriving DecidableEq

namespace Definition

def name (definition : Definition) : String := definition.token.name

def site (definition : Definition) : Site := ⟨definition.line, definition.token.start⟩

def entry (definition : Definition) : String × Site := (definition.name, definition.site)

end Definition

def DefinedAt (lines : List (List Char)) (definition : Definition) : Prop :=
  ∃ raw, lines[definition.line]? = some raw ∧
    Defines definition.kind (InBlock lines definition.line) (codePart raw) definition.token

def DeclaredAt (isKeyword : String → Bool) (lines : List (List Char)) (line : Nat)
    (token : Token) : Prop :=
  ∃ raw, lines[line]? = some raw ∧ Declares isKeyword (codePart raw) token

def Introduces (isKeyword : String → Bool) (lines : List (List Char)) (name : String) : Prop :=
  (∃ definition, DefinedAt lines definition ∧ definition.name = name) ∨
    ∃ line token, DeclaredAt isKeyword lines line token ∧ token.name = name

def definitionsAt (lines : List (List Char)) (line : Nat) : List Definition :=
  lines[line]?.toList.flatMap fun raw =>
    [SymbolKind.label, SymbolKind.var].flatMap fun kind =>
      (definition? kind (InBlock lines line) (codePart raw)).toList.map (⟨kind, line, ·⟩)

def definitions (lines : List (List Char)) : List Definition :=
  (List.range lines.length).flatMap (definitionsAt lines)

def entries (kind : SymbolKind) (lines : List (List Char)) : List (String × Site) :=
  ((definitions lines).filter fun definition => definition.kind = kind).map Definition.entry

theorem mem_definitionsAt_iff {lines : List (List Char)} {line : Nat} {definition : Definition} :
    definition ∈ definitionsAt lines line ↔
      definition.line = line ∧ DefinedAt lines definition := by
  obtain ⟨kind, place, token⟩ := definition
  simp only [definitionsAt, DefinedAt, List.mem_flatMap, Option.mem_toList, List.mem_map,
    Definition.mk.injEq, definition?_iff, decide_eq_true_iff]
  constructor
  · rintro ⟨raw, here, kind, -, token, shape, rfl, rfl, rfl⟩
    exact ⟨rfl, raw, here, shape⟩
  · rintro ⟨rfl, raw, here, shape⟩
    exact ⟨raw, here, kind, by cases kind <;> simp, token, shape, rfl, rfl, rfl⟩

theorem mem_definitions_iff {lines : List (List Char)} {definition : Definition} :
    definition ∈ definitions lines ↔ DefinedAt lines definition := by
  simp only [definitions, List.mem_flatMap, List.mem_range, mem_definitionsAt_iff]
  constructor
  · rintro ⟨line, -, -, shape⟩
    exact shape
  · intro shape
    have ⟨raw, here, _⟩ := shape
    exact ⟨definition.line, (List.getElem?_eq_some_iff.1 here).1, rfl, shape⟩

theorem length_definitionsAt_le (lines : List (List Char)) (line : Nat) :
    (definitionsAt lines line).length ≤ 1 := by
  rw [definitionsAt]
  cases lines[line]? with
  | none => simp
  | some raw =>
    cases label : definition? .label (InBlock lines line) (codePart raw) with
    | none =>
      cases found : definition? .var (InBlock lines line) (codePart raw) <;> simp [label, found]
    | some token =>
      have noVariable : definition? .var (InBlock lines line) (codePart raw) = none := by
        apply Option.eq_none_iff_forall_ne_some.2
        intro other defines
        exact not_definesVariable_of_definesLabel (labelDefinition?_iff.1 label)
          (variableDefinition?_iff.1 defines)
      simp [label, noVariable]

/-- Each line defines at most one name, so the definitions stand on different lines. -/
theorem pairwise_definitions (lines : List (List Char)) :
    (definitions lines).Pairwise fun a b => a.line < b.line := by
  rw [definitions, List.pairwise_flatMap]
  constructor
  · intro line _
    have short := length_definitionsAt_le lines line
    match definitionsAt lines line, short with
    | [], _ => exact .nil
    | [definition], _ => exact List.pairwise_singleton _ _
  · apply List.pairwise_lt_range.imp
    intro a b less first inFirst second inSecond
    obtain ⟨rfl, -⟩ := mem_definitionsAt_iff.1 inFirst
    obtain ⟨rfl, -⟩ := mem_definitionsAt_iff.1 inSecond
    exact less

theorem inBlock_append_of_lt {lines : List (List Char)} {line : Nat} (bound : line < lines.length)
    (raw : List Char) : InBlock (lines ++ [raw]) line ↔ InBlock lines line := by
  rw [InBlock, InBlock, List.take_append_of_le_length (by omega)]

theorem definitionsAt_append_of_lt {lines : List (List Char)} {line : Nat}
    (bound : line < lines.length) (raw : List Char) :
    definitionsAt (lines ++ [raw]) line = definitionsAt lines line := by
  have sameBlock : decide (InBlock (lines ++ [raw]) line) = decide (InBlock lines line) :=
    decide_eq_decide.2 (inBlock_append_of_lt bound raw)
  rw [definitionsAt, definitionsAt, List.getElem?_append_left bound, sameBlock]

theorem definitions_append (lines : List (List Char)) (raw : List Char) :
    definitions (lines ++ [raw]) =
      definitions lines ++ definitionsAt (lines ++ [raw]) lines.length := by
  have before : (List.range lines.length).flatMap (definitionsAt (lines ++ [raw])) =
      definitions lines := by
    apply List.flatMap_congr
    intro line member
    exact definitionsAt_append_of_lt (List.mem_range.1 member) raw
  rw [definitions, List.length_append, List.length_singleton, List.range_succ,
    List.flatMap_append, before, List.flatMap_singleton]

def entryAt (line : Nat) (token : Token) : String × Site := (token.name, ⟨line, token.start⟩)

@[simp] theorem Definition.entry_mk (kind : SymbolKind) (line : Nat) (token : Token) :
    Definition.entry ⟨kind, line, token⟩ = entryAt line token := rfl

theorem entries_append (kind : SymbolKind) (lines : List (List Char)) (raw : List Char) :
    entries kind (lines ++ [raw]) =
      entries kind lines ++
        (definition? kind (InBlock (lines ++ [raw]) lines.length) (codePart raw)).toList.map
          (entryAt lines.length) := by
  rw [entries, definitions_append, List.filter_append, List.map_append, ← entries]
  congr 1
  cases kind <;> simp [definitionsAt, List.filter_map, Function.comp_def]

theorem declaredAt_append_iff {isKeyword : String → Bool} {lines : List (List Char)}
    {raw : List Char} {line : Nat} {token : Token} :
    DeclaredAt isKeyword (lines ++ [raw]) line token ↔
      DeclaredAt isKeyword lines line token ∨
        line = lines.length ∧ declaration? isKeyword (codePart raw) = some token := by
  simp only [DeclaredAt, declaration?_iff]
  constructor
  · rintro ⟨other, here, declares⟩
    rw [List.getElem?_append] at here
    split at here
    · exact .inl ⟨other, here, declares⟩
    · obtain ⟨place, same⟩ := List.getElem?_eq_some_iff.1 here
      simp only [List.length_singleton] at place
      obtain rfl : raw = other := by simpa using same
      exact .inr ⟨by omega, declares⟩
  · rintro (⟨other, here, declares⟩ | ⟨rfl, declares⟩)
    · obtain ⟨bound, -⟩ := List.getElem?_eq_some_iff.1 here
      exact ⟨other, by rw [List.getElem?_append_left bound, here], declares⟩
    · exact ⟨raw, by simp, declares⟩

theorem mem_definitions_append_iff {lines : List (List Char)} {raw : List Char}
    {definition : Definition} :
    definition ∈ definitions (lines ++ [raw]) ↔
      definition ∈ definitions lines ∨
        definition.line = lines.length ∧
          definition? definition.kind (InBlock (lines ++ [raw]) lines.length) (codePart raw) =
            some definition.token := by
  obtain ⟨kind, line, token⟩ := definition
  rw [definitions_append, List.mem_append]
  apply or_congr_right
  cases kind <;> simp [definitionsAt, and_comm, eq_comm]

theorem exists_definedAt_append_iff {lines : List (List Char)} {raw : List Char} {name : String} :
    (∃ definition, DefinedAt (lines ++ [raw]) definition ∧ definition.name = name) ↔
      (∃ definition, DefinedAt lines definition ∧ definition.name = name) ∨
        ∃ kind, ∃ token ∈ definition? kind (InBlock (lines ++ [raw]) lines.length) (codePart raw),
          token.name = name := by
  simp only [← mem_definitions_iff, mem_definitions_append_iff, Option.mem_def]
  constructor
  · rintro ⟨definition, defined | ⟨-, found⟩, named⟩
    · exact .inl ⟨definition, defined, named⟩
    · exact .inr ⟨definition.kind, definition.token, found, named⟩
  · rintro (⟨definition, defined, named⟩ | ⟨kind, token, found, named⟩)
    · exact ⟨definition, .inl defined, named⟩
    · exact ⟨⟨kind, lines.length, token⟩, .inr ⟨rfl, found⟩, named⟩

theorem exists_declaredAt_append_iff {isKeyword : String → Bool} {lines : List (List Char)}
    {raw : List Char} {name : String} :
    (∃ line token, DeclaredAt isKeyword (lines ++ [raw]) line token ∧ token.name = name) ↔
      (∃ line token, DeclaredAt isKeyword lines line token ∧ token.name = name) ∨
        ∃ token ∈ declaration? isKeyword (codePart raw), token.name = name := by
  simp only [declaredAt_append_iff, Option.mem_def]
  constructor
  · rintro ⟨line, token, declared | ⟨-, found⟩, named⟩
    · exact .inl ⟨line, token, declared, named⟩
    · exact .inr ⟨token, found, named⟩
  · rintro (⟨line, token, declared, named⟩ | ⟨token, found, named⟩)
    · exact ⟨line, token, .inl declared, named⟩
    · exact ⟨lines.length, token, .inr ⟨rfl, found⟩, named⟩

theorem SymbolKind.exists_iff {holds : SymbolKind → Prop} :
    (∃ kind, holds kind) ↔ holds .label ∨ holds .var := by
  constructor
  · rintro ⟨_ | _, held⟩
    · exact .inl held
    · exact .inr held
  · rintro (held | held)
    · exact ⟨.label, held⟩
    · exact ⟨.var, held⟩

namespace SymbolTable

def registry (table : SymbolTable) : SymbolKind → Registry
  | .label => table.labels
  | .var => table.vars

structure Describes (table : SymbolTable) (grammar : Grammar) (lines : List (List Char)) :
    Prop where
  nesting : table.nesting = Nesting.zero.after lines
  registries : ∀ kind, (table.registry kind).Holds kind (entries kind lines)
  declarations : ∀ name, table.declarations.contains name = true ↔
    ∃ line token, DeclaredAt grammar.isDeclarationKeyword lines line token ∧ token.name = name
  known : ∀ name, table.contains name = true ↔
    Introduces grammar.isDeclarationKeyword lines name

theorem outside_eq {code : List Char} {found : Option Token}
    (plain : ∀ token, found = some token → ¬ InLiteral code token.start token.stop) :
    outside (literals code) found = found := by
  cases found with
  | none => rfl
  | some token =>
    have notInside := plain token rfl
    rw [← inside_literals_iff, Bool.not_eq_true] at notInside
    simp [outside, notInside]

/-- What a line introduces stands outside string literals, so the table takes all of it. -/
theorem observe_eq (grammar : Grammar) (table : SymbolTable) (line : Nat) (raw : List Char) :
    observe grammar table line raw =
      let nesting := table.nesting.observe (codePart raw)
      let inBlock := decide (0 < nesting.braceDepth)
      let labelled := apply (define · .label line ·) { table with nesting }
        (definition? .label inBlock (codePart raw))
      apply declare
        (apply (define · .var line ·) labelled (definition? .var inBlock (codePart raw)))
        (declaration? grammar.isDeclarationKeyword (codePart raw)) := by
  have defined (kind : SymbolKind) (inBlock : Bool) :
      outside (literals (codePart raw)) (definition? kind inBlock (codePart raw)) =
        definition? kind inBlock (codePart raw) := by
    apply outside_eq
    intro token found
    obtain ⟨rest, leads⟩ := (definition?_iff.1 found).leadsWith
    exact leads.not_inLiteral _
  have declared : outside (literals (codePart raw))
      (declaration? grammar.isDeclarationKeyword (codePart raw)) =
        declaration? grammar.isDeclarationKeyword (codePart raw) := by
    apply outside_eq
    intro token found
    exact (declaration?_iff.1 found).not_inLiteral _
  have label : outside (literals (codePart raw)) (labelDefinition? (codePart raw)) = _ :=
    defined .label false
  have var (inBlock : Bool) : outside (literals (codePart raw))
      (variableDefinition? inBlock (codePart raw)) = _ := defined .var inBlock
  rw [observe, label, var, declared]
  rfl

section Fields

variable (table : SymbolTable) (line : Nat) (found : Option Token)

@[simp] theorem apply_define_nesting (kind : SymbolKind) :
    (apply (define · kind line ·) table found).nesting = table.nesting := by
  cases found <;> cases kind <;> rfl

@[simp] theorem apply_declare_nesting : (apply declare table found).nesting = table.nesting := by
  cases found <;> rfl

@[simp] theorem apply_define_declarations (kind : SymbolKind) :
    (apply (define · kind line ·) table found).declarations = table.declarations := by
  cases found <;> cases kind <;> rfl

@[simp] theorem apply_declare_registry :
    (apply declare table found).registry = table.registry := by
  funext kind
  cases found <;> cases kind <;> rfl

theorem apply_define_registry_of_ne {kind other : SymbolKind} (different : kind ≠ other) :
    (apply (define · kind line ·) table found).registry other = table.registry other := by
  cases kind with
  | label =>
    cases other with
    | label => contradiction
    | var => cases found <;> rfl
  | var =>
    cases other with
    | label => cases found <;> rfl
    | var => contradiction

theorem holds_apply_define {kind : SymbolKind} {earlier : List (String × Site)}
    (holds : (table.registry kind).Holds kind earlier) :
    ((apply (define · kind line ·) table found).registry kind).Holds kind
      (earlier ++ found.toList.map (entryAt line)) := by
  cases found with
  | none => simpa [apply] using holds
  | some token =>
    have defined := Registry.holds_define holds token.name ⟨line, token.start⟩
    cases kind with
    | label => exact defined
    | var => exact defined

theorem contains_apply_define (kind : SymbolKind) (name : String) :
    (apply (define · kind line ·) table found).contains name = true ↔
      table.contains name = true ∨ ∃ token ∈ found, token.name = name := by
  cases found with
  | none => simp [apply]
  | some token => cases kind <;> simp [apply, define, contains, NameSet.contains_insert] <;> grind

theorem contains_apply_declare (name : String) :
    (apply declare table found).contains name = true ↔
      table.contains name = true ∨ ∃ token ∈ found, token.name = name := by
  cases found with
  | none => simp [apply]
  | some token => simp [apply, declare, contains, NameSet.contains_insert]; grind

theorem declarations_apply_declare (name : String) :
    (apply declare table found).declarations.contains name = true ↔
      table.declarations.contains name = true ∨ ∃ token ∈ found, token.name = name := by
  cases found with
  | none => simp [apply]
  | some token => simp [apply, declare, NameSet.contains_insert]; grind

end Fields

theorem describes_empty (grammar : Grammar) : Describes empty grammar [] where
  nesting := rfl
  registries kind := by cases kind <;> exact Registry.holds_empty _
  declarations name := by
    simp [empty, NameSet.empty, NameSet.contains, DeclaredAt]
  known name := by
    simp [empty, contains, NameSet.empty, NameSet.contains, Introduces, DefinedAt, DeclaredAt]

theorem describes_observe {table : SymbolTable} {grammar : Grammar} {lines : List (List Char)}
    (describes : Describes table grammar lines) (raw : List Char) :
    Describes (observe grammar table lines.length raw) grammar (lines ++ [raw]) := by
  have nesting : table.nesting.observe (codePart raw) = Nesting.zero.after (lines ++ [raw]) := by
    rw [Nesting.after_append, ← describes.nesting]
    rfl
  have inBlock : decide (0 < (table.nesting.observe (codePart raw)).braceDepth) =
      decide (InBlock (lines ++ [raw]) lines.length) := by
    rw [decide_eq_decide, nesting, Nesting.inBlock_iff, List.take_of_length_le (by simp)]
  rw [observe_eq]
  dsimp only
  rw [inBlock, nesting]
  exact {
    nesting := by simp
    registries := by
      intro kind
      have observed : ({ table with nesting := Nesting.zero.after (lines ++ [raw]) } :
          SymbolTable).registry kind = table.registry kind := by cases kind <;> rfl
      rw [entries_append, apply_declare_registry]
      cases kind with
      | label =>
        rw [apply_define_registry_of_ne _ _ _ (by decide)]
        exact holds_apply_define _ _ _ (observed ▸ describes.registries .label)
      | var =>
        apply holds_apply_define
        rw [apply_define_registry_of_ne _ _ _ (by decide)]
        exact observed ▸ describes.registries .var
    declarations := by
      intro name
      rw [declarations_apply_declare, apply_define_declarations, apply_define_declarations,
        describes.declarations, exists_declaredAt_append_iff]
    known := by
      intro name
      have earlier : ({ table with nesting := Nesting.zero.after (lines ++ [raw]) } :
          SymbolTable).contains name = true ↔ _ := describes.known name
      rw [contains_apply_declare, contains_apply_define, contains_apply_define, earlier,
        Introduces, Introduces, exists_definedAt_append_iff, exists_declaredAt_append_iff,
        SymbolKind.exists_iff]
      simp only [or_assoc, or_left_comm] }

theorem build_append (grammar : Grammar) (lines : List (List Char)) (raw : List Char) :
    build grammar (lines ++ [raw]) = observe grammar (build grammar lines) lines.length raw := by
  simp [build, List.zipIdx_append]

theorem describes_build (grammar : Grammar) (lines : List (List Char)) :
    Describes (build grammar lines) grammar lines := by
  induction lines using List.reverseRecOn with
  | nil => exact describes_empty grammar
  | append_singleton lines raw ih =>
    rw [build_append]
    exact describes_observe ih raw

end SymbolTable

end AsmLint
