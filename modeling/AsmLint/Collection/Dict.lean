/-! Finite maps whose keys are text. A map is the list of its entries in strictly increasing key
order, so two maps with the same entries are equal and listing one needs no sorting. -/

namespace AsmLint

universe u v

structure Dict (α : Type u) where
  entries : List (String × α)
  sorted : entries.Pairwise fun a b => a.1 < b.1

namespace Dict

variable {α : Type u} {β : Type v}

theorem ext {a b : Dict α} (same : a.entries = b.entries) : a = b := by
  cases a; cases b; cases same; rfl

instance [DecidableEq α] : DecidableEq (Dict α) := fun a b =>
  if same : a.entries = b.entries then isTrue (ext same)
  else isFalse fun equal => same (equal ▸ rfl)

def empty : Dict α := ⟨[], .nil⟩

def put (key : String) (value : α) : List (String × α) → List (String × α)
  | [] => [(key, value)]
  | entry :: rest =>
    if key < entry.1 then (key, value) :: entry :: rest
    else if key = entry.1 then (key, value) :: rest
    else entry :: put key value rest

theorem mem_put {key : String} {value : α} {entries : List (String × α)} {x : String × α}
    (member : x ∈ put key value entries) : x = (key, value) ∨ x ∈ entries := by
  induction entries with
  | nil => simpa [put] using member
  | cons entry rest ih =>
    simp only [put] at member
    split at member
    · simpa using member
    · split at member <;> simp only [List.mem_cons] at member ⊢ <;> grind

theorem gt_of_not_lt_of_ne {a b : String} (notLess : ¬ a < b) (different : a ≠ b) : b < a := by
  apply Classical.byContradiction
  intro notGreater
  exact different (String.le_antisymm (String.not_lt.1 notGreater) (String.not_lt.1 notLess))

theorem sorted_put (key : String) (value : α) {entries : List (String × α)}
    (sorted : entries.Pairwise fun a b => a.1 < b.1) :
    (put key value entries).Pairwise fun a b => a.1 < b.1 := by
  induction entries with
  | nil => simp [put]
  | cons entry rest ih =>
    have later := (List.pairwise_cons.1 sorted).1
    have tail := (List.pairwise_cons.1 sorted).2
    simp only [put]
    split
    case isTrue less =>
      refine List.pairwise_cons.2 ⟨fun x member => ?_, sorted⟩
      rcases List.mem_cons.1 member with rfl | member
      · exact less
      · exact String.lt_trans less (later x member)
    case isFalse notLess =>
      split
      case isTrue same =>
        exact List.pairwise_cons.2 ⟨fun x member => same ▸ later x member, tail⟩
      case isFalse different =>
        refine List.pairwise_cons.2 ⟨fun x member => ?_, ih tail⟩
        rcases mem_put member with rfl | member
        · exact gt_of_not_lt_of_ne notLess different
        · exact later x member

def insert (dict : Dict α) (key : String) (value : α) : Dict α :=
  ⟨put key value dict.entries, sorted_put key value dict.sorted⟩

/-- Of several values given for one key the last is kept. -/
def ofList (entries : List (String × α)) : Dict α :=
  entries.foldl (fun dict entry => dict.insert entry.1 entry.2) empty

def get? (dict : Dict α) (key : String) : Option α := dict.entries.lookup key

theorem lookup_first (key : String) (entry : String × α) (rest : List (String × α)) :
    (entry :: rest).lookup key = if key = entry.1 then some entry.2 else rest.lookup key := by
  rw [List.lookup_cons]
  by_cases same : key = entry.1
  · simp [same]
  · have differs : (key == entry.1) = false := by simp [same]
    simp [same, differs]

theorem lookup_put (key other : String) (value : α) (entries : List (String × α)) :
    (put key value entries).lookup other =
      if other = key then some value else entries.lookup other := by
  induction entries with
  | nil => simp [put, lookup_first]
  | cons entry rest ih =>
    simp only [put]
    split
    case isTrue less => simp [lookup_first]
    case isFalse notLess =>
      split
      case isTrue same => simp only [lookup_first, same]; split <;> rfl
      case isFalse different =>
        simp only [lookup_first, ih]
        grind

theorem get?_insert (dict : Dict α) (key other : String) (value : α) :
    (dict.insert key value).get? other = if other = key then some value else dict.get? other :=
  lookup_put key other value dict.entries

theorem get?_foldl_insert (entries : List (String × α)) (dict : Dict α) (key : String) :
    (entries.foldl (fun dict entry => dict.insert entry.1 entry.2) dict).get? key =
      (entries.reverse.lookup key).or (dict.get? key) := by
  induction entries generalizing dict with
  | nil => simp
  | cons entry rest ih =>
    have last : [entry].lookup key = if key = entry.1 then some entry.2 else none :=
      lookup_first key entry []
    rw [List.foldl_cons, ih, get?_insert, List.reverse_cons, List.lookup_append, last]
    cases rest.reverse.lookup key <;> by_cases same : key = entry.1 <;> simp [same]

theorem get?_ofList (entries : List (String × α)) (key : String) :
    (ofList entries).get? key = entries.reverse.lookup key := by
  rw [ofList, get?_foldl_insert]
  simp [get?, empty]

theorem mem_foldl_insert {entries : List (String × α)} {dict : Dict α} {x : String × α}
    (member : x ∈ (entries.foldl (fun dict entry => dict.insert entry.1 entry.2) dict).entries) :
    x ∈ entries ∨ x ∈ dict.entries := by
  induction entries generalizing dict with
  | nil => exact .inr member
  | cons entry rest ih =>
    rcases ih member with later | earlier
    · exact .inl (List.mem_cons_of_mem entry later)
    · rcases mem_put earlier with rfl | earlier
      · exact .inl List.mem_cons_self
      · exact .inr earlier

theorem mem_of_mem_ofList {entries : List (String × α)} {x : String × α}
    (member : x ∈ (ofList entries).entries) : x ∈ entries := by
  rcases mem_foldl_insert member with given | given
  · exact given
  · simp [empty] at given

def contains (dict : Dict α) (key : String) : Bool := (dict.get? key).isSome

def keys (dict : Dict α) : List String := dict.entries.map (·.1)

def values (dict : Dict α) : List α := dict.entries.map (·.2)

def size (dict : Dict α) : Nat := dict.entries.length

end Dict

end AsmLint
