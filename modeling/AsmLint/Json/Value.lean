/-! JSON values. The members of an object keep the order and the repetitions they are written with.
-/

namespace AsmLint

inductive Json where
  | null
  | bool (value : Bool)
  /-- A number written without fraction and exponent; negative zero is not one. -/
  | int (value : Int)
  | real (numeral : String)
  | string (value : String)
  | list (items : List Json)
  | object (members : List (String × Json))
  /-- Well-formed but without a value: a string whose escapes leave half of a surrogate pair alone,
  or an object with such a key. It can only be skipped. -/
  | unreadable

namespace Json

def ofNat (n : Nat) : Json := .int n

def ofStrings (texts : List String) : Json := .list (texts.map .string)

def ofOption {α : Type} (encode : α → Json) : Option α → Json
  | some value => encode value
  | none => .null

def putMember (key : String) (value : Json) : List (String × Json) → List (String × Json)
  | [] => [(key, value)]
  | member :: rest =>
    if key < member.1 then (key, value) :: member :: rest
    else member :: putMember key value rest

mutual

def sortKeys : Json → Json
  | .list items => .list (sortItems items)
  | .object members => .object (sortMembers members)
  | value => value

def sortItems : List Json → List Json
  | [] => []
  | item :: rest => sortKeys item :: sortItems rest

def sortMembers : List (String × Json) → List (String × Json)
  | [] => []
  | (key, value) :: rest => putMember key (sortKeys value) (sortMembers rest)

end

end Json

end AsmLint
