import AsmLint.Check.Document
import AsmLint.Proofs.JsonRecords

/-! Rule tables are read back from their texts. The texts in a table are arbitrary, and the legend
may mix lists of spellings with lists of categories in any way. A grammar is compiled from nothing
but a table and a policy, so one made from a table that was written and read again checks every
document as before. -/

namespace AsmLint

open Json

namespace Json

theorem asList?_ofStrings (texts : List String) :
    asList? asString? (.ofStrings texts) = some texts :=
  mapM_map_eq_some fun _ _ => rfl

theorem Plain.ofStrings (texts : List String) : Plain (.ofStrings texts) := by
  refine .list fun item listed => ?_
  obtain ⟨text, -, rfl⟩ := List.mem_map.1 listed
  exact .string text

end Json

theorem Category.ofJson?_toJson (category : Category) : ofJson? category.toJson = some category :=
  ofTag?_tag category

namespace LegendEntry

theorem ofJson?_toJson (entry : LegendEntry) : ofJson? entry.toJson = some entry := by
  cases entry with
  | tokens spellings => rw [toJson, ofJson?, asList?_ofStrings, Option.map_some]
  | categories kinds =>
    have decoded : asList? Category.ofJson? (.list (kinds.map Category.toJson)) = some kinds :=
      mapM_map_eq_some fun kind _ => kind.ofJson?_toJson
    rw [toJson, ofJson?, decoded, Option.map_some]

theorem plain_toJson (entry : LegendEntry) : Plain entry.toJson := by
  cases entry with
  | tokens spellings =>
    refine .object fun member listed => ?_
    rw [List.mem_singleton.1 listed]
    exact .ofStrings spellings
  | categories kinds =>
    refine .object fun member listed => ?_
    rw [List.mem_singleton.1 listed]
    refine .list fun item listed => ?_
    obtain ⟨kind, -, rfl⟩ := List.mem_map.1 listed
    exact .string kind.tag

end LegendEntry

namespace RuleTable

def members (table : RuleTable) : List (String × Json) :=
  [("schemaVersion", .string table.schemaVersion),
    ("name", .string table.name),
    ("legend", table.legend.toJson LegendEntry.toJson),
    ("instructions", table.instructions.toJson Json.ofStrings),
    ("directives", table.directives.toJson Json.ofStrings),
    ("declarationKeywords", .ofStrings table.declarationKeywords)]

theorem toJson_eq (table : RuleTable) : table.toJson = .object table.members := rfl

theorem nodup_keys (table : RuleTable) : (table.members.map Prod.fst).Nodup := by
  change fields.Nodup
  decide

theorem ofParts?_members (table : RuleTable) :
    ofParts? (some (.string table.schemaVersion)) (.string table.name)
      (table.legend.toJson LegendEntry.toJson) (table.instructions.toJson Json.ofStrings)
      (table.directives.toJson Json.ofStrings) (some (.ofStrings table.declarationKeywords)) =
        some table := by
  have legend : Legend.ofJson? (table.legend.toJson LegendEntry.toJson) = some table.legend :=
    asDict?_toJson fun entry _ => entry.2.ofJson?_toJson
  have usages (dict : Dict (List String)) :
      asDict? (asList? asString?) (dict.toJson Json.ofStrings) = some dict :=
    asDict?_toJson fun entry _ => asList?_ofStrings entry.2
  simp only [ofParts?, Option.getD_some, asString?, legend, usages, asList?_ofStrings,
    Option.bind_eq_bind, Option.bind_some]
  rfl

theorem ofJson?_toJson (table : RuleTable) : ofJson? table.toJson = some table := by
  have distinct := nodup_keys table
  have given {field : String} {json : Json} (listed : (field, json) ∈ table.members) :
      member? table.members field = some json := member?_eq_some distinct listed
  have schemaVersion : member? table.members "schemaVersion" = some (.string table.schemaVersion) :=
    given (by simp [members])
  have name : member? table.members "name" = some (.string table.name) :=
    given (by simp [members])
  have legend : member? table.members "legend" =
      some (table.legend.toJson LegendEntry.toJson) := given (by simp [members])
  have instructions : member? table.members "instructions" =
      some (table.instructions.toJson Json.ofStrings) := given (by simp [members])
  have directives : member? table.members "directives" =
      some (table.directives.toJson Json.ofStrings) := given (by simp [members])
  have keywords : member? table.members "declarationKeywords" =
      some (.ofStrings table.declarationKeywords) := given (by simp [members])
  rw [toJson_eq, ofJson?, if_pos (distinctFields_eq_true distinct _), schemaVersion, name, legend,
    instructions, directives, keywords]
  exact ofParts?_members table

theorem plain_toJson (table : RuleTable) : Plain table.toJson := by
  refine .object fun member listed => ?_
  simp only [List.mem_cons, List.not_mem_nil, or_false] at listed
  rcases listed with rfl | rfl | rfl | rfl | rfl | rfl
  · exact .string _
  · exact .string _
  · exact .dict fun entry _ => entry.2.plain_toJson
  · exact .dict fun entry _ => .ofStrings entry.2
  · exact .dict fun entry _ => .ofStrings entry.2
  · exact .ofStrings _

theorem read?_write (table : RuleTable) : read? table.write = some table := by
  rw [read?, write, compact, read_write table.plain_toJson, Option.bind_some, ofJson?_toJson]

/-- The text of a table loads, gives the same table in every field, and with it the same report on
every document under every policy. -/
theorem written_table_reloads (table : RuleTable) :
    ∃ reloaded, read? table.write = some reloaded ∧
      (reloaded.schemaVersion = table.schemaVersion ∧ reloaded.name = table.name ∧
        reloaded.legend = table.legend ∧ reloaded.instructions = table.instructions ∧
        reloaded.directives = table.directives ∧
        reloaded.declarationKeywords = table.declarationKeywords) ∧
      ∀ policy, (∀ text, validate (.ofTable reloaded policy) text =
          validate (.ofTable table policy) text) ∧
        ∀ lines, validateLines (.ofTable reloaded policy) lines =
          validateLines (.ofTable table policy) lines :=
  ⟨table, read?_write table, ⟨rfl, rfl, rfl, rfl, rfl, rfl⟩,
    fun _ => ⟨fun _ => rfl, fun _ => rfl⟩⟩

end RuleTable

end AsmLint
