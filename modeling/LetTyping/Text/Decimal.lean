/-!
# Decimal numerals

## Main definitions

* `Decimal.ofNat`, `Decimal.ofInt` — the numeral of a number, with no leading zeros and with a minus
  sign in front of a negative number.
* `Decimal.value` — the number that a list of digits denotes.
-/

namespace LetTyping.Decimal

/-- The decimal numeral of a natural number. -/
def ofNat (n : Nat) : String := String.ofList (Nat.toDigits 10 n)

/-- The decimal numeral of an integer. -/
def ofInt : Int → String
  | .ofNat n => ofNat n
  | .negSucc n => "-" ++ ofNat (n + 1)

/-- The number that a list of decimal digits denotes. -/
def value (digits : List Char) : Nat := Nat.ofDigitChars 10 digits 0

@[simp] theorem toList_ofNat (n : Nat) : (ofNat n).toList = Nat.toDigits 10 n := by
  simp [ofNat]

/-- Reading a numeral back gives the number it was written for. -/
@[simp] theorem value_toList_ofNat (n : Nat) : value (ofNat n).toList = n := by
  simp [value, Nat.ofDigitChars_toDigits]

end LetTyping.Decimal
