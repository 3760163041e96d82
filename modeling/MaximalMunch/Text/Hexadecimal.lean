/-!
# Hexadecimal numerals

Digits to base sixteen without leading zeros, in small or capital letters.
-/

namespace MaximalMunch.Text

/-- Hexadecimal digits with small letters. -/
def hexLower (n : Nat) : List Char :=
  Nat.toDigits 16 n

/-- Hexadecimal digits with capital letters. -/
def hexUpper (n : Nat) : List Char :=
  (Nat.toDigits 16 n).map Char.toUpper

end MaximalMunch.Text
