import AsmLint.Collection.Dict

/-! Finite sets of names, kept as a strictly increasing list. -/

namespace AsmLint

structure NameSet where
  names : List String
  sorted : names.Pairwise (· < ·)

namespace NameSet

theorem ext {a b : NameSet} (same : a.names = b.names) : a = b := by
  cases a; cases b; cases same; rfl

instance : DecidableEq NameSet := fun a b =>
  if same : a.names = b.names then isTrue (ext same)
  else isFalse fun equal => same (equal ▸ rfl)

def empty : NameSet := ⟨[], .nil⟩

def put (name : String) : List String → List String
  | [] => [name]
  | other :: rest =>
    if name < other then name :: other :: rest
    else if name = other then other :: rest
    else other :: put name rest

theorem mem_put {name x : String} {names : List String} :
    x ∈ put name names ↔ x = name ∨ x ∈ names := by
  induction names with
  | nil => simp [put]
  | cons other rest ih =>
    simp only [put]
    split
    · simp
    · split <;> simp only [List.mem_cons] <;> grind

theorem sorted_put (name : String) {names : List String} (sorted : names.Pairwise (· < ·)) :
    (put name names).Pairwise (· < ·) := by
  induction names with
  | nil => simp [put]
  | cons other rest ih =>
    have later := (List.pairwise_cons.1 sorted).1
    have tail := (List.pairwise_cons.1 sorted).2
    simp only [put]
    split
    case isTrue less =>
      refine List.pairwise_cons.2 ⟨fun x member => ?_, sorted⟩
      rcases List.mem_cons.1 member with rfl | member
      · exact less
      · exact String.lt_trans less (later x member)
    case isFalse notLess =>
      split
      case isTrue same => exact sorted
      case isFalse different =>
        refine List.pairwise_cons.2 ⟨fun x member => ?_, ih tail⟩
        rcases mem_put.1 member with rfl | member
        · exact Dict.gt_of_not_lt_of_ne notLess different
        · exact later x member

def insert (set : NameSet) (name : String) : NameSet :=
  ⟨put name set.names, sorted_put name set.sorted⟩

def ofList (names : List String) : NameSet := names.foldl insert empty

def contains (set : NameSet) (name : String) : Bool := set.names.contains name

theorem contains_insert (set : NameSet) (name x : String) :
    (set.insert name).contains x = true ↔ x = name ∨ set.contains x = true := by
  simp [contains, insert, mem_put]

theorem contains_foldl_insert (names : List String) (set : NameSet) (x : String) :
    (names.foldl insert set).contains x = true ↔ x ∈ names ∨ set.contains x = true := by
  induction names generalizing set with
  | nil => simp
  | cons name rest ih =>
    rw [List.foldl_cons, ih, contains_insert, List.mem_cons]
    grind

theorem contains_ofList (names : List String) (x : String) :
    (ofList names).contains x = true ↔ x ∈ names := by
  rw [ofList, contains_foldl_insert]
  simp [contains, empty]

end NameSet

end AsmLint
