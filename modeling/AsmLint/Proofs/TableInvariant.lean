import AsmLint.Proofs.Duplicates

/-! The invariant of symbol tables. A table keeps its records, the positions of the records by name
and the set of known names side by side; here they are shown to agree after every line that is read.
Each place of a record is a place in the document: the code reads the name there. -/

namespace AsmLint

structure IsIdentifier (text : List Char) : Prop where
  starts : ∃ c ∈ text.head?, isNameStart c = true
  inside : AllIn isNameChar text
  ascii : ∀ c ∈ text, c.toNat < 128

/-- The code reads the name at the column. Only blanks stand before it, it does not run on, and all
string literals come later. -/
structure ReadsAt (code : List Char) (column : Nat) (name : String) : Prop where
  identifier : IsIdentifier name.toList
  placed : ∃ indent rest, code = indent ++ name.toList ++ rest ∧ indent.length = column ∧
    AllIn isBlank indent ∧ StartsOutside isNameChar rest
  outside : ∀ literal ∈ literals code, column + name.toList.length ≤ literal.start

namespace Registry

structure Coherent (registry : Registry) (kind : SymbolKind) : Prop where
  distinct : (registry.records.map SymbolRecord.name).Nodup
  indexed : ∀ name position, registry.positions.get? name = some position ↔
    ∃ record, registry.records[position]? = some record ∧ record.name = name
  kinds : ∀ record ∈ registry.records, record.kind = kind
  defined : ∀ record ∈ registry.records, record.definitions ≠ []
  increasing : ∀ record ∈ registry.records,
    record.definitions.Pairwise fun a b => a.line < b.line
  ordered : registry.records.Pairwise fun a b =>
    ∀ first ∈ a.definitions.head?, ∀ second ∈ b.definitions.head?, first.line < second.line

theorem mem_sitesOf {entries : List (String × Site)} {name : String} {site : Site} :
    site ∈ sitesOf entries name ↔ (name, site) ∈ entries := by
  simp [sitesOf]

theorem sitesOf_ne_nil {entries : List (String × Site)} {name : String}
    (known : name ∈ firstNames entries) : sitesOf entries name ≠ [] := by
  obtain ⟨site, member⟩ := mem_firstNames.1 known
  exact List.ne_nil_of_mem (mem_sitesOf.2 member)

theorem head?_sitesOf_append {entries : List (String × Site)} {name : String}
    (known : name ∈ firstNames entries) (more : List (String × Site)) :
    (sitesOf (entries ++ more) name).head? = (sitesOf entries name).head? := by
  rw [sitesOf_append, List.head?_append_of_ne_nil _ (sitesOf_ne_nil known)]

theorem pairwise_firstNames {entries : List (String × Site)}
    (increasing : entries.Pairwise fun a b => a.2.line < b.2.line) :
    (firstNames entries).Pairwise fun a b =>
      ∀ first ∈ (sitesOf entries a).head?, ∀ second ∈ (sitesOf entries b).head?,
        first.line < second.line := by
  induction entries using List.reverseRecOn with
  | nil => exact .nil
  | append_singleton entries entry ih =>
    obtain ⟨name, site⟩ := entry
    obtain ⟨before, -, later⟩ := List.pairwise_append.1 increasing
    have kept : (firstNames entries).Pairwise fun a b =>
        ∀ first ∈ (sitesOf (entries ++ [(name, site)]) a).head?,
          ∀ second ∈ (sitesOf (entries ++ [(name, site)]) b).head?, first.line < second.line := by
      apply (ih before).imp_of_mem
      intro a b knownFirst knownSecond less
      rw [head?_sitesOf_append knownFirst, head?_sitesOf_append knownSecond]
      exact less
    by_cases known : name ∈ firstNames entries
    · rw [firstNames_append_of_mem known]
      exact kept
    · rw [firstNames_append_of_not_mem known]
      refine List.pairwise_append.2 ⟨kept, List.pairwise_singleton _ _, ?_⟩
      intro other knownOther last isLast first isFirst second isSecond
      obtain rfl := List.mem_singleton.1 isLast
      rw [head?_sitesOf_append knownOther] at isFirst
      rw [sitesOf_append, sitesOf_eq_nil known, sitesOf_singleton, if_pos rfl] at isSecond
      have listed := mem_sitesOf.1 (List.mem_of_mem_head? isFirst)
      have place : site = second := by simpa using isSecond
      rw [← place]
      exact later _ listed _ (List.mem_singleton_self _)

theorem idxOf?_eq_some_iff_getElem? {names : List String} (distinct : names.Nodup) {name : String}
    {position : Nat} : names.idxOf? name = some position ↔ names[position]? = some name := by
  rw [List.idxOf?_eq_some_iff]
  refine ⟨fun found => ?_, fun here => ?_⟩
  · obtain ⟨bound, here, -⟩ := found
    rw [List.getElem?_eq_getElem bound, here]
  · obtain ⟨bound, value⟩ := List.getElem?_eq_some_iff.1 here
    refine ⟨bound, value, fun earlier less same => ?_⟩
    have equal := (List.Nodup.getElem_inj_iff distinct).1 (same.trans value.symm)
    omega

section Holds

variable {registry : Registry} {kind : SymbolKind} {entries : List (String × Site)}

theorem Holds.names_eq (holds : registry.Holds kind entries) :
    registry.records.map SymbolRecord.name = firstNames entries := by
  rw [holds.records, List.map_map]
  exact List.map_id _

theorem Holds.mem_records (holds : registry.Holds kind entries) {record : SymbolRecord} :
    record ∈ registry.records ↔
      record.name ∈ firstNames entries ∧ record = recordOf kind entries record.name := by
  rw [holds.records, List.mem_map]
  refine ⟨fun found => ?_, fun found => ⟨_, found.1, found.2.symm⟩⟩
  obtain ⟨name, known, rfl⟩ := found
  exact ⟨known, rfl⟩

theorem Holds.coherent (holds : registry.Holds kind entries)
    (increasing : entries.Pairwise fun a b => a.2.line < b.2.line) : registry.Coherent kind where
  distinct := by
    rw [holds.names_eq]
    exact nodup_firstNames entries
  indexed name position := by
    rw [holds.positions, idxOf?_eq_some_iff_getElem? (nodup_firstNames entries), ← holds.names_eq,
      List.getElem?_map, Option.map_eq_some_iff]
  kinds record member := by
    rw [(holds.mem_records.1 member).2]
    rfl
  defined record member := by
    obtain ⟨known, same⟩ := holds.mem_records.1 member
    rw [same]
    exact sitesOf_ne_nil known
  increasing record member := by
    rw [(holds.mem_records.1 member).2]
    exact List.pairwise_map.2 (increasing.filter _)
  ordered := by
    rw [holds.records]
    exact List.pairwise_map.2 (pairwise_firstNames increasing)

end Holds

end Registry

namespace SymbolTable

structure Coherent (table : SymbolTable) (lines : List (List Char)) : Prop where
  registries : ∀ kind, (table.registry kind).Coherent kind
  known : ∀ name, table.contains name = true ↔
    name ∈ table.labels.records.map SymbolRecord.name ∨
      name ∈ table.vars.records.map SymbolRecord.name ∨ table.declarations.contains name = true
  /-- A line gives one definition at most, of a label or of a variable. -/
  single : ∀ record ∈ table.labels.records ++ table.vars.records, ∀ site ∈ record.definitions,
    ∀ other ∈ table.labels.records ++ table.vars.records, ∀ place ∈ other.definitions,
      site.line = place.line → record = other ∧ site = place
  tracked : ∀ kind name site,
    (∃ record ∈ (table.registry kind).records, record.name = name ∧ site ∈ record.definitions) ↔
      ∃ token : Token, DefinedAt lines ⟨kind, site.line, token⟩ ∧ token.name = name ∧
        token.start = site.column
  readable : ∀ record ∈ table.labels.records ++ table.vars.records, ∀ site ∈ record.definitions,
    ∃ raw, lines[site.line]? = some raw ∧ ReadsAt (codePart raw) site.column record.name

end SymbolTable

theorem toNat_lt_of_isNameChar {c : Char} (nameChar : isNameChar c = true) : c.toNat < 128 := by
  unfold isNameChar Char.isAlphanum at nameChar
  delta Char.isAlpha Char.isUpper Char.isLower at nameChar
  simp only [Char.isDigit, Bool.or_eq_true, Bool.and_eq_true, decide_eq_true_iff, beq_iff_eq,
    ge_iff_le, UInt32.le_iff_toNat_le, Char.ext_iff, ← UInt32.toNat_inj, Char.toNat,
    UInt32.reduceToNat, Char.reduceVal] at nameChar ⊢
  omega

theorem LeadsWith.readsAt {code rest : List Char} {token : Token}
    (leads : LeadsWith code token rest) : ReadsAt code token.start token.name where
  identifier := by
    have starts := leads.starts
    obtain ⟨indent, text, -, -, run, -⟩ := leads
    rw [Token.name, String.toList_ofList]
    exact ⟨starts, run.inside, fun c member => toNat_lt_of_isNameChar (run.inside c member)⟩
  placed := by
    obtain ⟨indent, text, blanks, column, run, -⟩ := leads
    refine ⟨indent, rest, ?_, column, blanks.inside, run.stops⟩
    rw [blanks.split, run.split, Token.name, String.toList_ofList, List.append_assoc]
  outside := by
    intro literal member
    obtain ⟨before, split, length, plain⟩ := leads.plain
    rw [split] at member
    have later := length_le_start plain member
    rw [length] at later
    simpa [Token.name, Token.stop] using later

theorem DefinedAt.readsAt {lines : List (List Char)} {definition : Definition}
    (defined : DefinedAt lines definition) :
    ∃ raw, lines[definition.line]? = some raw ∧
      ReadsAt (codePart raw) definition.token.start definition.name := by
  obtain ⟨raw, here, defines⟩ := defined
  obtain ⟨rest, leads⟩ := defines.leadsWith
  exact ⟨raw, here, leads.readsAt⟩

theorem pairwise_entries (kind : SymbolKind) (lines : List (List Char)) :
    (entries kind lines).Pairwise fun a b => a.2.line < b.2.line :=
  List.pairwise_map.2 ((pairwise_definitions lines).filter _)

theorem mem_entries {kind : SymbolKind} {lines : List (List Char)} {name : String} {site : Site} :
    (name, site) ∈ entries kind lines ↔
      ∃ token : Token, DefinedAt lines ⟨kind, site.line, token⟩ ∧ token.name = name ∧
        token.start = site.column := by
  simp only [entries, List.mem_map, List.mem_filter, decide_eq_true_iff, mem_definitions_iff]
  refine ⟨fun listed => ?_, fun defined => ?_⟩
  · obtain ⟨⟨_, line, token⟩, ⟨defined, rfl⟩, same⟩ := listed
    obtain ⟨rfl, rfl⟩ := Prod.mk.inj same
    exact ⟨token, defined, rfl, rfl⟩
  · obtain ⟨token, defined, rfl, column⟩ := defined
    refine ⟨⟨kind, site.line, token⟩, ⟨defined, rfl⟩, ?_⟩
    rw [Definition.entry_mk, entryAt, column]

theorem definition_eq_of_line {lines : List (List Char)} {definition other : Definition}
    (member : definition ∈ definitions lines) (otherMember : other ∈ definitions lines)
    (same : definition.line = other.line) : definition = other := by
  have distinct : ((definitions lines).map Definition.line).Nodup :=
    List.pairwise_map.2 ((pairwise_definitions lines).imp Nat.ne_of_lt)
  exact List.inj_on_of_nodup_map distinct member otherMember same

namespace SymbolTable

section Describes

variable {table : SymbolTable} {grammar : Grammar} {lines : List (List Char)}

theorem Describes.exists_definition (describes : table.Describes grammar lines)
    {record : SymbolRecord} (member : record ∈ table.labels.records ++ table.vars.records)
    {site : Site} (listed : site ∈ record.definitions) :
    ∃ definition ∈ definitions lines, recordFor lines definition = record ∧
      definition.site = site := by
  obtain ⟨kind, name, -, rfl⟩ := describes.mem_records_iff.1 member
  rw [Registry.recordOf, sitesOf_entries, List.mem_map] at listed
  obtain ⟨definition, inKind, same⟩ := listed
  obtain ⟨defined, sameName⟩ := List.mem_filter.1 inKind
  obtain ⟨rfl, rfl⟩ := of_decide_eq_true sameName
  exact ⟨definition, defined, rfl, same⟩

theorem Describes.mem_names (describes : table.Describes grammar lines) (kind : SymbolKind)
    (name : String) :
    name ∈ (table.registry kind).records.map SymbolRecord.name ↔
      ∃ definition, DefinedAt lines definition ∧ definition.kind = kind ∧
        definition.name = name := by
  rw [(describes.registries kind).names_eq, Registry.mem_firstNames]
  simp only [mem_entries]
  refine ⟨fun named => ?_, fun named => ?_⟩
  · obtain ⟨site, token, defined, named, -⟩ := named
    exact ⟨_, defined, rfl, named⟩
  · obtain ⟨⟨_, line, token⟩, defined, rfl, named⟩ := named
    exact ⟨⟨line, token.start⟩, token, defined, named, rfl⟩

theorem Describes.tracked (describes : table.Describes grammar lines) (kind : SymbolKind)
    (name : String) (site : Site) :
    (∃ record ∈ (table.registry kind).records, record.name = name ∧ site ∈ record.definitions) ↔
      ∃ token : Token, DefinedAt lines ⟨kind, site.line, token⟩ ∧ token.name = name ∧
        token.start = site.column := by
  rw [← mem_entries, ← Registry.mem_sitesOf]
  refine ⟨fun recorded => ?_, fun listed => ?_⟩
  · obtain ⟨record, member, rfl, listed⟩ := recorded
    rw [((describes.registries kind).mem_records.1 member).2] at listed
    exact listed
  · have known := Registry.mem_firstNames.2 ⟨site, Registry.mem_sitesOf.1 listed⟩
    exact ⟨Registry.recordOf kind (entries kind lines) name,
      (describes.registries kind).mem_records.2 ⟨known, rfl⟩, rfl, listed⟩

theorem Describes.coherent (describes : table.Describes grammar lines) : table.Coherent lines where
  registries kind := (describes.registries kind).coherent (pairwise_entries kind lines)
  known name := by
    have labels : name ∈ table.labels.records.map SymbolRecord.name ↔ _ :=
      describes.mem_names .label name
    have vars : name ∈ table.vars.records.map SymbolRecord.name ↔ _ :=
      describes.mem_names .var name
    have eitherKind : (∃ definition, DefinedAt lines definition ∧ definition.name = name) ↔
        ∃ kind definition, DefinedAt lines definition ∧ definition.kind = kind ∧
          definition.name = name := by
      simp
    rw [describes.known, Introduces, eitherKind, SymbolKind.exists_iff, ← labels, ← vars,
      ← describes.declarations, or_assoc]
  single record member site listed other otherMember place otherListed same := by
    obtain ⟨definition, defined, rfl, rfl⟩ := describes.exists_definition member listed
    obtain ⟨second, otherDefined, rfl, rfl⟩ := describes.exists_definition otherMember otherListed
    obtain rfl := definition_eq_of_line defined otherDefined same
    exact ⟨rfl, rfl⟩
  tracked := describes.tracked
  readable record member site listed := by
    obtain ⟨definition, defined, rfl, rfl⟩ := describes.exists_definition member listed
    exact (mem_definitions_iff.1 defined).readsAt

end Describes

def after (grammar : Grammar) (lines : List (List Char)) (count : Nat) : SymbolTable :=
  (lines.zipIdx.take count).foldl (fun table (raw, line) => observe grammar table line raw) empty

theorem after_eq (grammar : Grammar) (lines : List (List Char)) (count : Nat) :
    after grammar lines count = build grammar (lines.take count) := by
  have numbered : lines.zipIdx.take count = (lines.take count).zipIdx := by
    apply List.ext_getElem?
    intro line
    simp only [List.getElem?_take, List.getElem?_zipIdx]
    split <;> simp
  rw [after, build, numbered]

/-- The table of a document is coherent, and so is every table on the way to it. -/
theorem build_coherent (grammar : Grammar) (lines : List (List Char)) :
    (build grammar lines).Coherent lines ∧
      ∀ count, (after grammar lines count).Coherent (lines.take count) := by
  refine ⟨(describes_build grammar lines).coherent, fun count => ?_⟩
  rw [after_eq]
  exact (describes_build grammar _).coherent

end SymbolTable

end AsmLint
