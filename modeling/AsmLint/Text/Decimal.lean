/-! Decimal numerals. -/

namespace AsmLint

def digitsValue (digits : List Char) : Nat :=
  digits.foldl (fun value digit => value * 10 + (digit.toNat - 48)) 0

def decimal? (text : List Char) : Option Nat :=
  if !text.isEmpty && text.all Char.isDigit then some (digitsValue text) else none

theorem digitsValue_toDigits (n : Nat) : digitsValue (Nat.toDigits 10 n) = n := by
  have value := @Nat.ofDigitChars_ten_toDigits n
  simp only [Nat.ofDigitChars_eq_foldl, Nat.mul_comm 10] at value
  exact value

theorem decimal?_repr (n : Nat) : decimal? (Nat.repr n).toList = some n := by
  have digits : (Nat.toDigits 10 n).all Char.isDigit = true :=
    List.all_eq_true.2 fun c member => Nat.isDigit_of_mem_toDigits (by decide) (by decide) member
  rw [decimal?, Nat.toList_repr, digits, digitsValue_toDigits]
  simp [Nat.toDigits_ne_nil]

def intText : Int → String
  | .ofNat n => Nat.repr n
  | .negSucc n => "-" ++ Nat.repr (n + 1)

end AsmLint
