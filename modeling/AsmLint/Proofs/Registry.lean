import AsmLint.Symbols.Table
import Mathlib.Data.List.Induction

/-! A registry against the definitions it was given. After any run of definitions it holds one
record for each name, in the order in which the names came first, each record lists all places of
its name in order, and the positions by name are the positions of the records. -/

namespace AsmLint.Registry

def sitesOf (entries : List (String × Site)) (name : String) : List Site :=
  (entries.filter fun entry => entry.1 == name).map (·.2)

def firstNames (entries : List (String × Site)) : List String := (entries.map (·.1)).eraseDups

def recordOf (kind : SymbolKind) (entries : List (String × Site)) (name : String) : SymbolRecord :=
  ⟨name, kind, sitesOf entries name⟩

structure Holds (registry : Registry) (kind : SymbolKind) (entries : List (String × Site)) :
    Prop where
  records : registry.records = (firstNames entries).map (recordOf kind entries)
  positions : ∀ name, registry.positions.get? name = (firstNames entries).idxOf? name

theorem sitesOf_append (entries more : List (String × Site)) (name : String) :
    sitesOf (entries ++ more) name = sitesOf entries name ++ sitesOf more name := by
  simp [sitesOf]

theorem sitesOf_singleton (name other : String) (site : Site) :
    sitesOf [(name, site)] other = if name = other then [site] else [] := by
  by_cases same : name = other <;> simp [sitesOf, same]

theorem mem_firstNames {entries : List (String × Site)} {name : String} :
    name ∈ firstNames entries ↔ ∃ site, (name, site) ∈ entries := by
  simp [firstNames]

theorem firstNames_append_of_mem {entries : List (String × Site)} {name : String}
    (known : name ∈ firstNames entries) (site : Site) :
    firstNames (entries ++ [(name, site)]) = firstNames entries := by
  have member : name ∈ entries.map (·.1) := List.mem_eraseDups.1 known
  simp only [firstNames, List.map_append, List.map_cons, List.map_nil, List.eraseDups_append]
  simp [List.removeAll, member]

theorem firstNames_append_of_not_mem {entries : List (String × Site)} {name : String}
    (new : name ∉ firstNames entries) (site : Site) :
    firstNames (entries ++ [(name, site)]) = firstNames entries ++ [name] := by
  have notMember : name ∉ entries.map (·.1) := fun member => new (List.mem_eraseDups.2 member)
  simp only [firstNames, List.map_append, List.map_cons, List.map_nil, List.eraseDups_append]
  simp [List.removeAll, notMember, List.eraseDups_cons]

theorem nodup_firstNames (entries : List (String × Site)) : (firstNames entries).Nodup := by
  induction entries using List.reverseRecOn with
  | nil => simp [firstNames]
  | append_singleton entries entry ih =>
    obtain ⟨name, site⟩ := entry
    by_cases known : name ∈ firstNames entries
    · rw [firstNames_append_of_mem known]
      exact ih
    · rw [firstNames_append_of_not_mem known]
      exact List.nodup_append.2 ⟨ih, by simp, by grind⟩

theorem holds_empty (kind : SymbolKind) : Holds empty kind [] where
  records := rfl
  positions _ := rfl

theorem recordOf_append_of_ne {kind : SymbolKind} {entries : List (String × Site)}
    {name other : String} (different : name ≠ other) (site : Site) :
    recordOf kind (entries ++ [(name, site)]) other = recordOf kind entries other := by
  simp [recordOf, sitesOf_append, sitesOf_singleton, different]

theorem recordOf_append_self {kind : SymbolKind} {entries : List (String × Site)}
    (name : String) (site : Site) :
    recordOf kind (entries ++ [(name, site)]) name = addSite site (recordOf kind entries name) := by
  simp [recordOf, addSite, sitesOf_append, sitesOf_singleton]

theorem sitesOf_eq_nil {entries : List (String × Site)} {name : String}
    (new : name ∉ firstNames entries) : sitesOf entries name = [] := by
  simp only [sitesOf, List.map_eq_nil_iff, List.filter_eq_nil_iff, beq_iff_eq]
  rintro ⟨other, site⟩ member rfl
  exact new (mem_firstNames.2 ⟨site, member⟩)

theorem map_recordOf_append_of_mem {kind : SymbolKind} {entries : List (String × Site)}
    {name : String} {position : Nat} (found : (firstNames entries).idxOf? name = some position)
    (site : Site) :
    (firstNames entries).map (recordOf kind (entries ++ [(name, site)])) =
      ((firstNames entries).map (recordOf kind entries)).modify position (addSite site) := by
  obtain ⟨bound, here, -⟩ := List.idxOf?_eq_some_iff.1 found
  apply List.ext_getElem?
  intro i
  rw [List.getElem?_modify, List.getElem?_map, List.getElem?_map]
  by_cases same : position = i
  · subst same
    simp [List.getElem?_eq_getElem bound, here, recordOf_append_self]
  · cases other : (firstNames entries)[i]? with
    | none => simp
    | some otherName =>
      have different : name ≠ otherName := by
        rintro rfl
        apply same
        rw [← List.getElem?_inj bound (nodup_firstNames entries), other,
          List.getElem?_eq_getElem bound, here]
      simp [same, recordOf_append_of_ne different]

theorem map_recordOf_append_of_not_mem {kind : SymbolKind} {entries : List (String × Site)}
    {name : String} (new : name ∉ firstNames entries) (site : Site) :
    (firstNames entries ++ [name]).map (recordOf kind (entries ++ [(name, site)])) =
      (firstNames entries).map (recordOf kind entries) ++ [⟨name, kind, [site]⟩] := by
  rw [List.map_append]
  congr 1
  · apply List.map_congr_left
    intro other member
    have different : name ≠ other := by
      rintro rfl
      exact new member
    exact recordOf_append_of_ne different site
  · rw [List.map_singleton, recordOf_append_self, recordOf, sitesOf_eq_nil new]
    rfl

theorem idxOf?_append_new {names : List String} {name : String} (new : name ∉ names)
    (other : String) :
    (names ++ [name]).idxOf? other =
      if other = name then some names.length else names.idxOf? other := by
  have missing : names.idxOf? name = none := List.idxOf?_eq_none_iff.2 new
  simp only [List.idxOf?] at missing ⊢
  rw [List.findIdx?_append]
  by_cases same : other = name
  · subst same
    simp [missing, List.findIdx?_cons]
  · have differs : (name == other) = false := beq_eq_false_iff_ne.2 (Ne.symm same)
    simp [same, differs, List.findIdx?_cons]

theorem holds_define {registry : Registry} {kind : SymbolKind} {entries : List (String × Site)}
    (holds : Holds registry kind entries) (name : String) (site : Site) :
    Holds (registry.define kind name site) kind (entries ++ [(name, site)]) := by
  rw [define, holds.positions name]
  split
  case h_1 position found =>
    have known : name ∈ firstNames entries := List.isSome_idxOf?.1 (by simp [found])
    refine ⟨?_, fun other => ?_⟩
    · rw [firstNames_append_of_mem known, holds.records, map_recordOf_append_of_mem found]
    · rw [firstNames_append_of_mem known, holds.positions]
  case h_2 new =>
    have notKnown : name ∉ firstNames entries := List.idxOf?_eq_none_iff.1 new
    refine ⟨?_, fun other => ?_⟩
    · rw [firstNames_append_of_not_mem notKnown, holds.records,
        map_recordOf_append_of_not_mem notKnown]
    · rw [firstNames_append_of_not_mem notKnown, Dict.get?_insert, holds.positions,
        idxOf?_append_new notKnown, holds.records, List.length_map]

end AsmLint.Registry
