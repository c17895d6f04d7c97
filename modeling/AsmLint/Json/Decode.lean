import AsmLint.Collection.Dict
import AsmLint.Json.Value

/-! Reads parts of records out of JSON values. A record is an object with its fields by name, in any
order and with others among them, or a list of its fields in declared order. -/

namespace AsmLint

namespace Json

def asString? : Json → Option String
  | .string value => some value
  | _ => none

def asList? {α : Type} (decode : Json → Option α) : Json → Option (List α)
  | .list items => items.mapM decode
  | _ => none

def decodeMember {α : Type} (decode : Json → Option α) (member : String × Json) :
    Option (String × α) :=
  (decode member.2).map fun value => (member.1, value)

/-- A key that is repeated keeps its last value, but every value has to decode. -/
def asDict? {α : Type} (decode : Json → Option α) : Json → Option (Dict α)
  | .object members => (members.mapM (decodeMember decode)).map Dict.ofList
  | _ => none

def asWord? : Json → Option Nat
  | .int (.ofNat n) => if n < UInt64.size then some n else none
  | _ => none

def asOption? {α : Type} (decode : Json → Option α) : Json → Option (Option α)
  | .null => some none
  | value => (decode value).map some

/-- The word of an alternative without content: a string, or an object that maps it to null. -/
def asTag? : Json → Option String
  | .string tag => some tag
  | .object [(tag, .null)] => some tag
  | _ => none

def member? (members : List (String × Json)) (name : String) : Option Json := members.lookup name

def distinctFields (fields : List String) (members : List (String × Json)) : Bool :=
  fields.all fun field => (members.filter fun member => member.1 == field).length ≤ 1

end Json

end AsmLint
