import AsmLint.Proofs.JsonText
import AsmLint.Table.Json
import Mathlib.Data.List.Nodup

/-! Records in JSON. The members of a record have different keys, so what a field is read as does
not depend on the order of the members, and sorting them by their keys loses nothing. -/

namespace AsmLint

section Dictionaries

variable {α : Type}

theorem Dict.put_last {key : String} {value : α} {entries : List (String × α)}
    (last : ∀ entry ∈ entries, entry.1 < key) :
    put key value entries = entries ++ [(key, value)] := by
  induction entries with
  | nil => rfl
  | cons entry rest ih =>
    have before := last entry List.mem_cons_self
    rw [put, if_neg (String.lt_asymm before), if_neg (String.ne_of_lt before).symm,
      ih fun entry member => last entry (List.mem_cons_of_mem _ member), List.cons_append]

theorem Dict.entries_foldl_insert {entries : List (String × α)} {dict : Dict α}
    (sorted : (dict.entries ++ entries).Pairwise fun a b => a.1 < b.1) :
    (entries.foldl (fun dict entry => dict.insert entry.1 entry.2) dict).entries =
      dict.entries ++ entries := by
  induction entries generalizing dict with
  | nil => simp
  | cons entry rest ih =>
    have inserted : (dict.insert entry.1 entry.2).entries = dict.entries ++ [entry] :=
      put_last fun other member =>
        (List.pairwise_append.1 sorted).2.2 other member entry List.mem_cons_self
    rw [List.foldl_cons, ih (by simpa [inserted] using sorted), inserted, List.append_assoc,
      List.singleton_append]

theorem Dict.ofList_entries (dict : Dict α) : ofList dict.entries = dict :=
  ext (entries_foldl_insert dict.sorted)

end Dictionaries

namespace Json

section Decoding

variable {α β : Type} {encode : α → Json} {decode : Json → Option α}

theorem mapM_map_eq_some {write : α → β} {read : β → Option α} {items : List α}
    (each : ∀ item ∈ items, read (write item) = some item) :
    (items.map write).mapM read = some items := by
  induction items with
  | nil => rfl
  | cons item items ih =>
    have tail := ih fun item member => each item (List.mem_cons_of_mem _ member)
    rw [List.map_cons, List.mapM_cons, each item List.mem_cons_self, tail]
    rfl

theorem asDict?_toJson {dict : Dict α}
    (each : ∀ entry ∈ dict.entries, decode (encode entry.2) = some entry.2) :
    asDict? decode (dict.toJson encode) = some dict := by
  rw [Dict.toJson, asDict?, mapM_map_eq_some, Option.map_some, Dict.ofList_entries]
  intro entry member
  rw [decodeMember, each entry member]
  rfl

theorem Plain.dict {dict : Dict α} (each : ∀ entry ∈ dict.entries, Plain (encode entry.2)) :
    Plain (dict.toJson encode) := by
  refine .object fun member listed => ?_
  obtain ⟨entry, given, rfl⟩ := List.mem_map.1 listed
  exact each entry given

end Decoding

section Fields

variable {α : Type} {members : List (String × Json)} {field : String} {decode : Json → Option α}

/-- The members give the field and it is read as the value; without a value they leave it out. -/
def Gives (members : List (String × Json)) (field : String) (decode : Json → Option α) :
    Option α → Prop
  | some value => ∃ json, (field, json) ∈ members ∧ decode json = some value
  | none => field ∉ members.map Prod.fst

theorem member?_eq_some {json : Json} (distinct : (members.map Prod.fst).Nodup)
    (given : (field, json) ∈ members) : member? members field = some json := by
  obtain ⟨before, after, rfl⟩ := List.append_of_mem given
  rw [List.map_append, List.map_cons, List.nodup_append] at distinct
  refine List.lookup_eq_some_iff.2 ⟨before, after, rfl, fun member earlier => ?_⟩
  have other := distinct.2.2 member.1 (List.mem_map_of_mem earlier) field List.mem_cons_self
  simpa using other.symm

theorem member?_eq_none (missing : field ∉ members.map Prod.fst) :
    member? members field = none := by
  refine List.lookup_eq_none_iff.2 fun member listed => ?_
  have other : field ≠ member.1 := fun same => missing (same ▸ List.mem_map_of_mem listed)
  simpa using other

theorem Gives.exists_member? {value : α} (gives : Gives members field decode (some value))
    (distinct : (members.map Prod.fst).Nodup) :
    ∃ json, member? members field = some json ∧ decode json = some value := by
  obtain ⟨json, given, decoded⟩ := gives
  exact ⟨json, member?_eq_some distinct given, decoded⟩

theorem Gives.asOption? {value : Option α} (gives : Gives members field decode value)
    (distinct : (members.map Prod.fst).Nodup) (refused : decode .null = none) :
    Json.asOption? decode ((member? members field).getD .null) = some value := by
  cases value with
  | none =>
    rw [member?_eq_none gives]
    rfl
  | some value =>
    obtain ⟨json, found, decoded⟩ := gives.exists_member? distinct
    have present : json ≠ .null := by
      rintro rfl
      simp [refused] at decoded
    rw [found, Option.getD_some, Json.asOption?, decoded, Option.map_some]
    exact present

theorem distinctFields_eq_true (distinct : (members.map Prod.fst).Nodup) (fields : List String) :
    distinctFields fields members = true := by
  rw [distinctFields, List.all_eq_true]
  intro field _
  have count := List.nodup_iff_count_le_one.1 distinct field
  rw [List.count, List.countP_map, List.countP_eq_length_filter] at count
  exact decide_eq_true count

end Fields

section Sorting

theorem putMember_perm (key : String) (value : Json) (members : List (String × Json)) :
    (putMember key value members).Perm ((key, value) :: members) := by
  induction members with
  | nil => exact .refl _
  | cons member rest ih =>
    rw [putMember]
    split
    · exact .refl _
    · exact (ih.cons member).trans (.swap ..)

theorem putMember_first {key : String} {value : Json} {members : List (String × Json)}
    (first : ∀ member ∈ members, key < member.1) :
    putMember key value members = (key, value) :: members := by
  cases members with
  | nil => rfl
  | cons member rest => rw [putMember, if_pos (first member List.mem_cons_self)]

theorem sortItems_eq_map (items : List Json) : sortItems items = items.map sortKeys := by
  induction items with
  | nil => rw [sortItems, List.map_nil]
  | cons item rest ih => rw [sortItems, ih, List.map_cons]

theorem sortMembers_perm (members : List (String × Json)) :
    (sortMembers members).Perm (members.map fun member => (member.1, member.2.sortKeys)) := by
  induction members with
  | nil => rw [sortMembers, List.map_nil]
  | cons member rest ih =>
    rw [sortMembers, List.map_cons]
    exact (putMember_perm _ _ _).trans (ih.cons _)

theorem mem_sortMembers_iff {members : List (String × Json)} {key : String} {json : Json} :
    (key, json) ∈ sortMembers members ↔
      ∃ value, (key, value) ∈ members ∧ value.sortKeys = json := by
  simp only [(sortMembers_perm members).mem_iff, List.mem_map, Prod.mk.injEq]
  refine ⟨fun sorted => ?_, fun given => ?_⟩
  · obtain ⟨⟨_, value⟩, listed, rfl, same⟩ := sorted
    exact ⟨value, listed, same⟩
  · obtain ⟨value, listed, same⟩ := given
    exact ⟨(key, value), listed, rfl, same⟩

theorem keys_sortMembers_perm (members : List (String × Json)) :
    ((sortMembers members).map Prod.fst).Perm (members.map Prod.fst) := by
  have keys := (sortMembers_perm members).map Prod.fst
  rwa [List.map_map] at keys

theorem Plain.sortKeys {value : Json} (plain : Plain value) : Plain value.sortKeys := by
  induction plain with
  | null => exact .null
  | bool value => exact .bool value
  | int value => exact .int value
  | string value => exact .string value
  | list each ih =>
    rw [Json.sortKeys, sortItems_eq_map]
    refine .list fun item member => ?_
    obtain ⟨item, listed, rfl⟩ := List.mem_map.1 member
    exact ih item listed
  | object each ih =>
    rw [Json.sortKeys]
    refine .object fun member listed => ?_
    obtain ⟨value, given, sorted⟩ := mem_sortMembers_iff.1 listed
    exact sorted ▸ ih _ given

theorem Gives.sortMembers {α : Type} {members : List (String × Json)} {field : String}
    {decode : Json → Option α} {value : Option α} (gives : Gives members field decode value)
    (kept : ∀ json, (field, json) ∈ members → decode json.sortKeys = decode json) :
    Gives (sortMembers members) field decode value := by
  cases value with
  | none => exact fun listed => gives ((keys_sortMembers_perm members).mem_iff.1 listed)
  | some value =>
    obtain ⟨json, given, decoded⟩ := gives
    exact ⟨json.sortKeys, mem_sortMembers_iff.2 ⟨json, given, rfl⟩, (kept json given).trans decoded⟩

theorem sortKeys_toJson {α : Type} {encode : α → Json} (dict : Dict α)
    (each : ∀ entry ∈ dict.entries, (encode entry.2).sortKeys = encode entry.2) :
    (dict.toJson encode).sortKeys = dict.toJson encode := by
  obtain ⟨entries, sorted⟩ := dict
  rw [Dict.toJson, Json.sortKeys]
  congr 1
  induction entries with
  | nil => rw [List.map_nil, Json.sortMembers]
  | cons entry rest ih =>
    have ⟨first, others⟩ := List.pairwise_cons.1 sorted
    rw [List.map_cons, Json.sortMembers, each entry List.mem_cons_self,
      ih others fun entry member => each entry (List.mem_cons_of_mem _ member)]
    apply putMember_first
    intro member listed
    obtain ⟨other, later, rfl⟩ := List.mem_map.1 listed
    exact first other later

end Sorting

end Json

end AsmLint
