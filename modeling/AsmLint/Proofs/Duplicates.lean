import AsmLint.Check.Duplicate
import AsmLint.Command.Reporting
import AsmLint.Proofs.Findings
import AsmLint.Proofs.SymbolTable
import Mathlib.Data.List.Nodup
import Mathlib.Data.List.Sort

/-! Repeated definitions. A definition is repeated if an earlier line defines the same name as the
same kind of symbol. The repeated definitions are reported once each, in the order of their lines,
and each report names the line that comes first. -/

namespace AsmLint

def definitionsOf (lines : List (List Char)) (kind : SymbolKind) (name : String) :
    List Definition :=
  (definitions lines).filter fun definition => definition.kind = kind ∧ definition.name = name

def IsRepeated (lines : List (List Char)) (definition : Definition) : Prop :=
  ∃ earlier ∈ definitionsOf lines definition.kind definition.name, earlier.line < definition.line

instance (lines : List (List Char)) (definition : Definition) :
    Decidable (IsRepeated lines definition) :=
  inferInstanceAs (Decidable (∃ earlier ∈ definitionsOf _ _ _, _))

def repeated (lines : List (List Char)) : List Definition :=
  (definitions lines).filter fun definition => IsRepeated lines definition

theorem pairwise_repeated (lines : List (List Char)) :
    (repeated lines).Pairwise fun a b => a.line < b.line :=
  (pairwise_definitions lines).filter _

def recordFor (lines : List (List Char)) (definition : Definition) : SymbolRecord :=
  Registry.recordOf definition.kind (entries definition.kind lines) definition.name

theorem pairwise_definitionsOf (lines : List (List Char)) (kind : SymbolKind) (name : String) :
    (definitionsOf lines kind name).Pairwise fun a b => a.line < b.line :=
  (pairwise_definitions lines).filter _

theorem mem_definitionsOf_self {lines : List (List Char)} {definition : Definition}
    (member : definition ∈ definitions lines) :
    definition ∈ definitionsOf lines definition.kind definition.name := by
  simpa [definitionsOf] using member

theorem sitesOf_entries (lines : List (List Char)) (kind : SymbolKind) (name : String) :
    Registry.sitesOf (entries kind lines) name =
      (definitionsOf lines kind name).map Definition.site := by
  simp only [Registry.sitesOf, entries, definitionsOf, List.filter_map, List.filter_filter,
    List.map_map]
  congr 1
  apply List.filter_congr
  intro definition _
  rw [Bool.eq_iff_iff]
  simp [Definition.entry, and_comm]

theorem tail_eq_filter {ordered : List Definition}
    (increasing : ordered.Pairwise fun a b => a.line < b.line) :
    ordered.tail = ordered.filter fun definition =>
      ∃ earlier ∈ ordered, earlier.line < definition.line := by
  cases ordered with
  | nil => rfl
  | cons first rest =>
    have later := (List.pairwise_cons.1 increasing).1
    have notFirst : ¬ ∃ earlier ∈ first :: rest, earlier.line < first.line := by
      rintro ⟨earlier, member, less⟩
      rcases List.mem_cons.1 member with rfl | member
      · omega
      · have := later earlier member
        omega
    have all : rest.filter (fun definition => ∃ earlier ∈ first :: rest,
        earlier.line < definition.line) = rest := by
      apply List.filter_eq_self.2
      intro definition member
      simpa using Or.inl (later definition member)
    rw [List.tail_cons, List.filter_cons, if_neg (by simpa using notFirst), all]

theorem filter_repeated (lines : List (List Char)) (kind : SymbolKind) (name : String) :
    ((repeated lines).filter fun definition => definition.kind = kind ∧ definition.name = name) =
      (definitionsOf lines kind name).tail := by
  rw [tail_eq_filter (pairwise_definitionsOf lines kind name), repeated, definitionsOf,
    List.filter_filter, List.filter_filter]
  apply List.filter_congr
  intro definition _
  by_cases same : definition.kind = kind ∧ definition.name = name
  · obtain ⟨rfl, rfl⟩ := same
    rw [Bool.eq_iff_iff]
    simp only [and_self, decide_true, Bool.true_and, Bool.and_true, decide_eq_true_iff]
    rfl
  · simp [same]

theorem tail_sitesOf_entries (lines : List (List Char)) (kind : SymbolKind) (name : String) :
    (Registry.sitesOf (entries kind lines) name).tail =
      ((repeated lines).filter fun definition =>
        definition.kind = kind ∧ definition.name = name).map Definition.site := by
  rw [sitesOf_entries, ← List.map_tail, filter_repeated]

theorem mem_firstNames_of_mem {lines : List (List Char)} {definition : Definition}
    (member : definition ∈ definitions lines) :
    definition.name ∈ Registry.firstNames (entries definition.kind lines) := by
  apply Registry.mem_firstNames.2
  refine ⟨definition.site, List.mem_map.2 ⟨definition, ?_, rfl⟩⟩
  simpa using member

theorem nodup_map_recordOf (kind : SymbolKind) (entries : List (String × Site)) :
    ((Registry.firstNames entries).map (Registry.recordOf kind entries)).Nodup := by
  apply List.pairwise_map.2
  apply (Registry.nodup_firstNames entries).imp
  intro name other different same
  exact different (congrArg SymbolRecord.name same)

theorem Site.upTo_iff {a b : Site} :
    a.upTo b = true ↔ a.line < b.line ∨ a.line = b.line ∧ a.column ≤ b.column := by
  simp [Site.upTo]

theorem mergeSort_upTo_eq {found ordered : List (SymbolRecord × Site)}
    (increasing : ordered.Pairwise fun a b => a.2.line < b.2.line) (same : found.Perm ordered) :
    (found.mergeSort fun a b => a.2.upTo b.2) = ordered := by
  have permutation := (List.mergeSort_perm found fun a b => a.2.upTo b.2).trans same
  have distinct : (ordered.map fun place => place.2.line).Nodup :=
    List.pairwise_map.2 (increasing.imp Nat.ne_of_lt)
  apply @List.Perm.eq_of_pairwise _ (fun a b => a.2.upTo b.2 = true) _ _ _ _ _ permutation
  · intro a b inSorted inOrdered before after
    apply List.inj_on_of_nodup_map distinct (permutation.mem_iff.1 inSorted) inOrdered
    rw [Site.upTo_iff] at before after
    omega
  · apply List.pairwise_mergeSort
    · intro a b c
      simp only [Site.upTo_iff]
      omega
    · intro a b
      rw [Bool.or_eq_true, Site.upTo_iff, Site.upTo_iff]
      omega
  · apply increasing.imp
    intro a b less
    exact Site.upTo_iff.2 (.inl less)

namespace SymbolTable.Describes

variable {table : SymbolTable} {grammar : Grammar} {lines : List (List Char)}

theorem records_eq (describes : table.Describes grammar lines) :
    table.labels.records ++ table.vars.records =
      (Registry.firstNames (entries .label lines)).map
          (Registry.recordOf .label (entries .label lines)) ++
        (Registry.firstNames (entries .var lines)).map
          (Registry.recordOf .var (entries .var lines)) := by
  rw [← (describes.registries .label).records, ← (describes.registries .var).records]
  rfl

theorem mem_records_iff (describes : table.Describes grammar lines) {record : SymbolRecord} :
    record ∈ table.labels.records ++ table.vars.records ↔
      ∃ kind, ∃ name ∈ Registry.firstNames (entries kind lines),
        Registry.recordOf kind (entries kind lines) name = record := by
  rw [describes.records_eq, List.mem_append, List.mem_map, List.mem_map, SymbolKind.exists_iff]

theorem mem_repeats_iff (describes : table.Describes grammar lines)
    {found : SymbolRecord × Site} :
    found ∈ (table.labels.records ++ table.vars.records).flatMap repeats ↔
      ∃ definition ∈ repeated lines, (recordFor lines definition, definition.site) = found := by
  simp only [List.mem_flatMap, describes.mem_records_iff, repeats, List.mem_map]
  constructor
  · rintro ⟨record, ⟨kind, name, -, rfl⟩, site, member, rfl⟩
    rw [Registry.recordOf, tail_sitesOf_entries, List.mem_map] at member
    obtain ⟨definition, member, rfl⟩ := member
    obtain ⟨isRepeated, same⟩ := List.mem_filter.1 member
    obtain ⟨rfl, rfl⟩ := of_decide_eq_true same
    exact ⟨definition, isRepeated, rfl⟩
  · rintro ⟨definition, member, rfl⟩
    have defined := (List.mem_filter.1 member).1
    refine ⟨recordFor lines definition,
      ⟨definition.kind, definition.name, mem_firstNames_of_mem defined, rfl⟩,
      definition.site, ?_, rfl⟩
    rw [recordFor, Registry.recordOf, tail_sitesOf_entries]
    exact List.mem_map.2 ⟨definition, by simpa using member, rfl⟩

theorem nodup_repeats (describes : table.Describes grammar lines) :
    ((table.labels.records ++ table.vars.records).flatMap repeats).Nodup := by
  apply List.pairwise_flatMap.2
  constructor
  · intro record member
    obtain ⟨kind, name, -, rfl⟩ := describes.mem_records_iff.1 member
    rw [repeats, Registry.recordOf, tail_sitesOf_entries, List.map_map]
    apply List.pairwise_map.2
    apply ((pairwise_repeated lines).filter _).imp
    rintro a b less same
    have sameLine : a.line = b.line := congrArg (fun found => found.2.line) same
    omega
  · have nodup : (table.labels.records ++ table.vars.records).Nodup := by
      rw [describes.records_eq, List.nodup_append]
      refine ⟨nodup_map_recordOf _ _, nodup_map_recordOf _ _, ?_⟩
      intro record label other var same
      obtain ⟨name, -, rfl⟩ := List.mem_map.1 label
      obtain ⟨otherName, -, rfl⟩ := List.mem_map.1 var
      have sameKind : SymbolKind.label = .var := congrArg SymbolRecord.kind same
      contradiction
    apply nodup.imp
    rintro record other different found inRecord again inOther rfl
    obtain ⟨site, -, rfl⟩ := List.mem_map.1 inRecord
    obtain ⟨otherSite, -, same⟩ := List.mem_map.1 inOther
    exact different (congrArg Prod.fst same).symm

theorem redefinitions_eq (describes : table.Describes grammar lines) :
    table.redefinitions =
      (repeated lines).map fun definition => (recordFor lines definition, definition.site) := by
  have increasing : ((repeated lines).map fun definition =>
      (recordFor lines definition, definition.site)).Pairwise fun a b => a.2.line < b.2.line :=
    List.pairwise_map.2 (pairwise_repeated lines)
  apply mergeSort_upTo_eq increasing
  apply (List.perm_ext_iff_of_nodup describes.nodup_repeats ?_).2
  · intro found
    rw [describes.mem_repeats_iff, List.mem_map]
  · apply increasing.imp
    rintro a b less rfl
    exact Nat.lt_irrefl _ less

end SymbolTable.Describes

theorem checkDuplicates_eq (grammar : Grammar) (lines : List (List Char)) :
    checkDuplicates (.build grammar lines) = (repeated lines).map fun definition =>
      duplicateFinding (recordFor lines definition) definition.site := by
  rw [checkDuplicates, (SymbolTable.describes_build grammar lines).redefinitions_eq, List.map_map]
  rfl

def DefinedOn (lines : List (List Char)) (kind : SymbolKind) (name : String) (line : Nat) : Prop :=
  ∃ token : Token, token.name = name ∧ DefinedAt lines ⟨kind, line, token⟩

theorem definedOn_iff {lines : List (List Char)} {kind : SymbolKind} {name : String} {line : Nat} :
    DefinedOn lines kind name line ↔
      line ∈ (definitionsOf lines kind name).map Definition.line := by
  simp only [definitionsOf, List.mem_map, List.mem_filter, mem_definitions_iff, decide_eq_true_iff]
  constructor
  · rintro ⟨token, named, defined⟩
    exact ⟨⟨kind, line, token⟩, ⟨defined, rfl, named⟩, rfl⟩
  · rintro ⟨⟨_, _, token⟩, ⟨defined, rfl, named⟩, rfl⟩
    exact ⟨token, named, defined⟩

instance (lines : List (List Char)) (kind : SymbolKind) (name : String) (line : Nat) :
    Decidable (DefinedOn lines kind name line) :=
  decidable_of_iff _ definedOn_iff.symm

def definingLines (lines : List (List Char)) (kind : SymbolKind) (name : String) : List Nat :=
  (List.range lines.length).filter fun line => DefinedOn lines kind name line

theorem definingLines_eq (lines : List (List Char)) (kind : SymbolKind) (name : String) :
    definingLines lines kind name = (definitionsOf lines kind name).map Definition.line := by
  have increasing : (definingLines lines kind name).Pairwise (· < ·) :=
    List.pairwise_lt_range.filter _
  apply increasing.eq_of_mem_iff (List.pairwise_map.2 (pairwise_definitionsOf lines kind name))
  intro line
  rw [definingLines, List.mem_filter, List.mem_range, decide_eq_true_iff, definedOn_iff]
  constructor
  · exact And.right
  · intro member
    obtain ⟨token, -, raw, here, -⟩ := definedOn_iff.2 member
    exact ⟨(List.getElem?_eq_some_iff.1 here).1, member⟩

example : definingLines ["a:".toList, "a = 1".toList, "b:".toList, "a:".toList] .label "a" =
    [0, 3] := by decide

theorem repeated_eq_nil_iff {lines : List (List Char)} :
    repeated lines = [] ↔ ∀ kind name first second, DefinedOn lines kind name first →
      DefinedOn lines kind name second → first = second := by
  simp only [repeated, List.filter_eq_nil_iff, decide_eq_true_iff]
  constructor
  · intro never kind name
    have ordered : ∀ first second, DefinedOn lines kind name first →
        DefinedOn lines kind name second → ¬ first < second := by
      intro first second definedFirst definedSecond less
      obtain ⟨earlier, inFirst, rfl⟩ := List.mem_map.1 (definedOn_iff.1 definedFirst)
      obtain ⟨later, inSecond, rfl⟩ := List.mem_map.1 (definedOn_iff.1 definedSecond)
      obtain ⟨member, same⟩ := List.mem_filter.1 inSecond
      obtain ⟨rfl, rfl⟩ := of_decide_eq_true same
      exact never later member ⟨earlier, inFirst, less⟩
    intro first second definedFirst definedSecond
    have notLess := ordered first second definedFirst definedSecond
    have notGreater := ordered second first definedSecond definedFirst
    omega
  · rintro unique definition member ⟨earlier, inEarlier, less⟩
    have same := unique definition.kind definition.name earlier.line definition.line
      (definedOn_iff.2 (List.mem_map_of_mem inEarlier))
      (definedOn_iff.2 (List.mem_map_of_mem (mem_definitionsOf_self member)))
    omega

theorem slice_middle (before text after : List Char) :
    (⟨before.length, before.length + text.length⟩ : Extent).slice (before ++ text ++ after) =
      text := by
  simp [Extent.slice, Extent.length]

theorem Defines.slice {kind : SymbolKind} {inBlock : Prop} {raw : List Char} {token : Token}
    (defines : Defines kind inBlock (codePart raw) token) :
    (⟨token.start, token.stop⟩ : Extent).slice raw = token.text := by
  obtain ⟨rest, leads⟩ := defines.leadsWith
  obtain ⟨indent, text, blanks, length, name, -⟩ := leads
  have whole : raw = codePart raw ++ raw.dropWhile fun c => !isCommentMarker c :=
    List.takeWhile_append_dropWhile.symm
  have around : raw = indent ++ token.text ++
      (rest ++ raw.dropWhile fun c => !isCommentMarker c) := by
    rw [blanks.split, name.split] at whole
    simpa only [List.append_assoc] using whole
  rw [around, Token.stop, ← length]
  exact slice_middle indent token.text _

structure ReportsRepeat (lines : List (List Char)) (definition : Definition)
    (finding : Diagnostic) : Prop where
  defined : DefinedAt lines definition
  span : finding.span = some ⟨definition.line, definition.token.start, definition.token.stop⟩
  covers : ∃ raw, lines[definition.line]? = some raw ∧
    (⟨definition.token.start, definition.token.stop⟩ : Extent).slice raw = definition.token.text
  kind : finding.value? "kind" = some definition.kind.describe
  name : finding.value? "name" = some definition.name
  first : ∃ first, (definingLines lines definition.kind definition.name).head? = some first ∧
    finding.value? "first_line" = some (Nat.repr first) ∧
    finding.label =
      "'" ++ definition.name ++ "' first defined on line " ++ Nat.repr (first + 1)

theorem value?_duplicateFinding (record : SymbolRecord) (site : Site) (key : String) :
    (duplicateFinding record site).value? key =
      [("first_line", Nat.repr (firstLine record site)), ("name", record.name),
        ("kind", record.kind.describe)].lookup key :=
  Diagnostic.value?_ofCode ..

theorem Diagnostic.label_first_line {finding : Diagnostic} {name first : String}
    (noReason : finding.value? "reason" = none) (named : finding.value? "name" = some name)
    (numeral : finding.value? "first_line" = some first) :
    finding.label = "'" ++ name ++ "' first defined on line " ++
      Nat.repr ((decimal? first.toList).getD 0 + 1) := by
  rw [value?] at noReason named numeral
  simp only [label, noReason, named, numeral, Option.filter_none]

theorem label_duplicateFinding (record : SymbolRecord) (site : Site) :
    (duplicateFinding record site).label =
      "'" ++ record.name ++ "' first defined on line " ++
        Nat.repr (firstLine record site + 1) := by
  rw [Diagnostic.label_first_line (value?_duplicateFinding record site "reason")
    (value?_duplicateFinding record site "name")
    (value?_duplicateFinding record site "first_line"), decimal?_repr]
  rfl

theorem firstLine_recordFor {lines : List (List Char)} {definition : Definition}
    (defined : definition ∈ definitions lines) (site : Site) :
    (definingLines lines definition.kind definition.name).head? =
      some (firstLine (recordFor lines definition) site) := by
  obtain ⟨first, rest, found⟩ :=
    List.exists_cons_of_ne_nil (List.ne_nil_of_mem (mem_definitionsOf_self defined))
  rw [definingLines_eq, firstLine, recordFor, Registry.recordOf, sitesOf_entries, found]
  rfl

theorem reportsRepeat_duplicateFinding {lines : List (List Char)} {definition : Definition}
    (defined : definition ∈ definitions lines) :
    ReportsRepeat lines definition
      (duplicateFinding (recordFor lines definition) definition.site) where
  defined := mem_definitions_iff.1 defined
  span := by
    simp [duplicateFinding, Diagnostic.ofCode, Diagnostic.make, recordFor, Registry.recordOf,
      Definition.site, Definition.name, Token.name, Token.stop]
  covers := by
    obtain ⟨raw, here, defines⟩ := mem_definitions_iff.1 defined
    exact ⟨raw, here, defines.slice⟩
  kind := value?_duplicateFinding _ _ _
  name := value?_duplicateFinding _ _ _
  first := ⟨_, firstLine_recordFor defined definition.site, value?_duplicateFinding _ _ _,
    label_duplicateFinding _ _⟩

/-- Of the lines that define a name as one kind of symbol, all but the first are reported, each once
and in the order of the lines; a label and a variable never count against each other. -/
theorem duplicateDefinition_findings (grammar : Grammar) (lines : List (List Char)) :
    ∃ reported : List Definition,
      List.Forall₂ (ReportsRepeat lines) reported
        (findingsOf .duplicateDefinition (validateLines grammar lines).issues) ∧
      reported.Pairwise (fun a b => a.line < b.line) ∧
      ∀ kind name, (reported.filter fun definition =>
          definition.kind = kind ∧ definition.name = name).map Definition.line =
        (definingLines lines kind name).tail := by
  refine ⟨repeated lines, ?_, pairwise_repeated lines, ?_⟩
  · rw [findingsOf_duplicateDefinition, checkDuplicates,
      (SymbolTable.describes_build grammar lines).redefinitions_eq, List.map_map,
      List.forall₂_map_right_iff, List.forall₂_same]
    intro definition member
    exact reportsRepeat_duplicateFinding (List.mem_filter.1 member).1
  · intro kind name
    rw [filter_repeated, List.map_tail, definingLines_eq]

end AsmLint
