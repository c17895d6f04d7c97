import AsmLint.Json.Value

/-! The text of a JSON value, on one line or laid out over several with two blanks a level.
Characters outside ASCII are written as they are. -/

namespace AsmLint

namespace Json

inductive Layout where
  | compact
  | pretty
deriving DecidableEq, Repr

def Layout.newline (layout : Layout) (depth : Nat) : List Char :=
  match layout with
  | .compact => []
  | .pretty => '\n' :: List.replicate (2 * depth) ' '

def Layout.colon : Layout → List Char
  | .compact => [':']
  | .pretty => [':', ' ']

def hexDigit (n : Nat) : Char := if n < 10 then Char.ofNat (48 + n) else Char.ofNat (87 + n)

def escapeChar (c : Char) : List Char :=
  if c = '\x22' then ['\x5c', '\x22']
  else if c = '\x5c' then ['\x5c', '\x5c']
  else if c = '\x08' then ['\x5c', 'b']
  else if c = '\x09' then ['\x5c', 't']
  else if c = '\x0a' then ['\x5c', 'n']
  else if c = '\x0c' then ['\x5c', 'f']
  else if c = '\x0d' then ['\x5c', 'r']
  else if c.toNat < 32 then
    ['\x5c', 'u', '0', '0', hexDigit (c.toNat / 16), hexDigit (c.toNat % 16)]
  else [c]

def writeText (text : String) : List Char :=
  '\x22' :: text.toList.flatMap escapeChar ++ ['\x22']

def writeInt : Int → List Char
  | .ofNat n => Nat.toDigits 10 n
  | .negSucc n => '-' :: Nat.toDigits 10 (n + 1)

mutual

def write (layout : Layout) (depth : Nat) : Json → List Char
  | .null => ['n', 'u', 'l', 'l']
  | .bool true => ['t', 'r', 'u', 'e']
  | .bool false => ['f', 'a', 'l', 's', 'e']
  | .int value => writeInt value
  | .real numeral => numeral.toList
  | .string value => writeText value
  | .list [] => ['[', ']']
  | .list (item :: rest) =>
    '[' :: layout.newline (depth + 1) ++ write layout (depth + 1) item ++
      writeItems layout depth rest
  | .object [] => ['\x7b', '\x7d']
  | .object ((key, value) :: rest) =>
    '\x7b' :: layout.newline (depth + 1) ++ writeText key ++ layout.colon ++
      write layout (depth + 1) value ++ writeMembers layout depth rest
  | .unreadable => ['n', 'u', 'l', 'l']

def writeItems (layout : Layout) (depth : Nat) : List Json → List Char
  | [] => layout.newline depth ++ [']']
  | item :: rest =>
    ',' :: layout.newline (depth + 1) ++ write layout (depth + 1) item ++
      writeItems layout depth rest

def writeMembers (layout : Layout) (depth : Nat) : List (String × Json) → List Char
  | [] => layout.newline depth ++ ['\x7d']
  | (key, value) :: rest =>
    ',' :: layout.newline (depth + 1) ++ writeText key ++ layout.colon ++
      write layout (depth + 1) value ++ writeMembers layout depth rest

end

def compact (value : Json) : String := String.ofList (write .compact 0 value)

def pretty (value : Json) : String := String.ofList (write .pretty 0 value)

end Json

end AsmLint
