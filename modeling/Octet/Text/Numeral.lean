/-!
Numerals for bytes: an optional plus sign and then decimal digits, with any
number of zeros in front.
-/

namespace Octet.Text

/-- The number that a row of decimal digits spells. -/
def decimal (digits : List Char) : Nat :=
  digits.foldl (fun n d => 10 * n + (d.toNat - 48)) 0

/-- The digits of a numeral, without its sign. -/
def unsigned : List Char → List Char
  | '+' :: digits => digits
  | digits => digits

/-- The byte that a numeral spells, if it is a numeral and its number fits. -/
def byte? (numeral : String) : Option UInt8 :=
  let digits := unsigned numeral.toList
  if digits ≠ [] ∧ digits.all Char.isDigit ∧ decimal digits < 256 then
    some (UInt8.ofNat (decimal digits))
  else
    none

end Octet.Text
