import AsmLint.Json.Value
import AsmLint.Text.Decimal

/-! Reads JSON text. Nothing beyond the standard syntax is taken: no comments, no trailing commas,
no byte order mark, no raw control characters in strings. -/

namespace AsmLint

namespace Json

def isJsonSpace (c : Char) : Bool := c == ' ' || c == '\t' || c == '\n' || c == '\r'

def skipSpace (text : List Char) : List Char := text.dropWhile isJsonSpace

def hexValue? (c : Char) : Option Nat :=
  if '0' ≤ c && c ≤ '9' then some (c.toNat - 48)
  else if 'a' ≤ c && c ≤ 'f' then some (c.toNat - 87)
  else if 'A' ≤ c && c ≤ 'F' then some (c.toNat - 55)
  else none

def hexUnit? (a b c d : Char) : Option Nat := do
  return ((← hexValue? a) * 16 + (← hexValue? b)) * 256 + (← hexValue? c) * 16 + (← hexValue? d)

def shortEscape? (c : Char) : Option Char :=
  match c with
  | '\x22' => some '\x22'
  | '\x5c' => some '\x5c'
  | '/' => some '/'
  | 'b' => some '\x08'
  | 'f' => some '\x0c'
  | 'n' => some '\x0a'
  | 'r' => some '\x0d'
  | 't' => some '\x09'
  | _ => none

def isHighSurrogate (unit : Nat) : Bool := 0xd800 ≤ unit && unit < 0xdc00

def isLowSurrogate (unit : Nat) : Bool := 0xdc00 ≤ unit && unit < 0xe000

def joinSurrogates (high low : Nat) : Char :=
  Char.ofNat (0x10000 + (high - 0xd800) * 0x400 + (low - 0xdc00))

def readUnits : List Char → Option (List Nat × List Char)
  | [] => none
  | '\x22' :: rest => some ([], rest)
  | '\x5c' :: 'u' :: a :: b :: c :: d :: rest =>
    match hexUnit? a b c d with
    | some unit => (readUnits rest).map fun (units, rest) => (unit :: units, rest)
    | none => none
  | '\x5c' :: c :: rest =>
    match shortEscape? c with
    | some escaped => (readUnits rest).map fun (units, rest) => (escaped.toNat :: units, rest)
    | none => none
  | c :: rest =>
    if c.toNat < 32 then none
    else (readUnits rest).map fun (units, rest) => (c.toNat :: units, rest)

/-- The characters that code units spell; half of a surrogate pair spells none. -/
def joinUnits : List Nat → Option (List Char)
  | [] => some []
  | [unit] => if isHighSurrogate unit || isLowSurrogate unit then none else some [Char.ofNat unit]
  | unit :: next :: rest =>
    if isHighSurrogate unit then
      if isLowSurrogate next then (joinUnits rest).map (joinSurrogates unit next :: ·) else none
    else if isLowSurrogate unit then none
    else (joinUnits (next :: rest)).map (Char.ofNat unit :: ·)

def readString (text : List Char) : Option (Option String × List Char) :=
  (readUnits text).map fun (units, rest) => ((joinUnits units).map String.ofList, rest)

def wholeDigits : List Char → List Char × List Char
  | '0' :: rest => (['0'], rest)
  | text => (text.takeWhile Char.isDigit, text.dropWhile Char.isDigit)

def fractionPart : List Char → List Char × List Char
  | '.' :: rest =>
    if rest.head?.any Char.isDigit then
      ('.' :: rest.takeWhile Char.isDigit, rest.dropWhile Char.isDigit)
    else ([], '.' :: rest)
  | text => ([], text)

def exponentSign : List Char → List Char × List Char
  | '+' :: rest => (['+'], rest)
  | '-' :: rest => (['-'], rest)
  | text => ([], text)

def exponentPart : List Char → List Char × List Char
  | [] => ([], [])
  | mark :: rest =>
    let (sign, digits) := exponentSign rest
    if (mark == 'e' || mark == 'E') && digits.head?.any Char.isDigit then
      (mark :: sign ++ digits.takeWhile Char.isDigit, digits.dropWhile Char.isDigit)
    else ([], mark :: rest)

def readNumber (text : List Char) : Option (Json × List Char) :=
  let (sign, body) := match text with
    | '-' :: rest => (['-'], rest)
    | _ => ([], text)
  let (whole, rest) := wholeDigits body
  let (fraction, rest) := fractionPart rest
  let (exponent, rest) := exponentPart rest
  if whole.isEmpty then none
  else if fraction.isEmpty && exponent.isEmpty && !(sign == ['-'] && whole == ['0']) then
    let value : Int := digitsValue whole
    some (.int (if sign.isEmpty then value else -value), rest)
  else some (.real (String.ofList (sign ++ whole ++ fraction ++ exponent)), rest)

def readKey (text : List Char) : Option (Option String × List Char) :=
  match skipSpace text with
  | '\x22' :: rest =>
    match readString rest with
    | some (key, rest) =>
      match skipSpace rest with
      | ':' :: rest => some (key, rest)
      | _ => none
    | none => none
  | _ => none

abbrev Members := Option (List (String × Json))

def Members.push (key : Option String) (value : Json) (members : Members) : Members := do
  return (← key, value) :: (← members)

def Members.toJson : Members → Json
  | some members => .object members
  | none => .unreadable

mutual

def readValue : (fuel : Nat) → List Char → Option (Json × List Char)
  | 0, _ => none
  | fuel + 1, text =>
    match skipSpace text with
    | 'n' :: 'u' :: 'l' :: 'l' :: rest => some (.null, rest)
    | 't' :: 'r' :: 'u' :: 'e' :: rest => some (.bool true, rest)
    | 'f' :: 'a' :: 'l' :: 's' :: 'e' :: rest => some (.bool false, rest)
    | '\x22' :: rest =>
      match readString rest with
      | some (some value, rest) => some (.string value, rest)
      | some (none, rest) => some (.unreadable, rest)
      | none => none
    | '[' :: rest =>
      match skipSpace rest with
      | ']' :: rest => some (.list [], rest)
      | rest =>
        match readValue fuel rest with
        | some (item, rest) =>
          match readItems fuel rest with
          | some (items, rest) => some (.list (item :: items), rest)
          | none => none
        | none => none
    | '\x7b' :: rest =>
      match skipSpace rest with
      | '\x7d' :: rest => some (.object [], rest)
      | rest =>
        match readKey rest with
        | some (key, rest) =>
          match readValue fuel rest with
          | some (value, rest) =>
            match readMembers fuel rest with
            | some (members, rest) => some ((Members.push key value members).toJson, rest)
            | none => none
          | none => none
        | none => none
    | text => readNumber text

def readItems : (fuel : Nat) → List Char → Option (List Json × List Char)
  | 0, _ => none
  | fuel + 1, text =>
    match skipSpace text with
    | ']' :: rest => some ([], rest)
    | ',' :: rest =>
      match readValue fuel rest with
      | some (item, rest) =>
        match readItems fuel rest with
        | some (items, rest) => some (item :: items, rest)
        | none => none
      | none => none
    | _ => none

def readMembers : (fuel : Nat) → List Char → Option (Members × List Char)
  | 0, _ => none
  | fuel + 1, text =>
    match skipSpace text with
    | '\x7d' :: rest => some (some [], rest)
    | ',' :: rest =>
      match readKey rest with
      | some (key, rest) =>
        match readValue fuel rest with
        | some (value, rest) =>
          match readMembers fuel rest with
          | some (members, rest) => some (Members.push key value members, rest)
          | none => none
        | none => none
      | none => none
    | _ => none

end

/-- The value that a text consists of. Every nested call has at least one character less to read, so
the number of characters bounds the depth. -/
def read (text : String) : Option Json :=
  let characters := text.toList
  match readValue (characters.length + 1) characters with
  | some (value, rest) => if (skipSpace rest).isEmpty then some value else none
  | none => none

end Json

end AsmLint
