/-! Positions counted in bytes of the UTF-8 form. Everything else counts characters; this module
converts between the two for readers that address a text by bytes. -/

namespace AsmLint

def utf8Length : (text : List Char) → Nat
  | [] => 0
  | c :: rest => c.utf8Size + utf8Length rest

def byteOffset (text : List Char) (column : Nat) : Nat := utf8Length (text.take column)

def columnAt? : (text : List Char) → (byte : Nat) → Option Nat
  | _, 0 => some 0
  | [], _ + 1 => none
  | c :: rest, byte + 1 =>
    if c.utf8Size ≤ byte + 1 then (columnAt? rest (byte + 1 - c.utf8Size)).map (· + 1) else none

/-- An offset that is no character boundary, or lies past the end, comes back as it is. -/
def columnOfByte (text : List Char) (byte : Nat) : Nat := (columnAt? text byte).getD byte

theorem columnAt?_byteOffset (text : List Char) (column : Nat) (bound : column ≤ text.length) :
    columnAt? text (byteOffset text column) = some column := by
  induction text generalizing column with
  | nil =>
    have zero : column = 0 := by simpa using bound
    subst zero
    simp [byteOffset, utf8Length, columnAt?]
  | cons c rest ih =>
    cases column with
    | zero => simp [byteOffset, utf8Length, columnAt?]
    | succ column =>
      have next := ih column (by simpa using bound)
      have size := c.utf8Size_pos
      have split : byteOffset (c :: rest) (column + 1) = c.utf8Size + byteOffset rest column := by
        simp [byteOffset, utf8Length]
      obtain ⟨below, total⟩ : ∃ n, c.utf8Size + byteOffset rest column = n + 1 :=
        ⟨c.utf8Size + byteOffset rest column - 1, by omega⟩
      rw [split, total, columnAt?, if_pos (by omega)]
      have rest_offset : below + 1 - c.utf8Size = byteOffset rest column := by omega
      rw [rest_offset, next]
      rfl

theorem columnOfByte_byteOffset (text : List Char) (column : Nat) (bound : column ≤ text.length) :
    columnOfByte text (byteOffset text column) = column := by
  simp [columnOfByte, columnAt?_byteOffset text column bound]

end AsmLint
