/-!
Digits of bases up to sixteen, and the numbers that lists of them stand for.
-/

namespace Nonlocal.Text

/-- The value of a hexadecimal digit in either case. -/
def hexDigit? (c : Char) : Option Nat :=
  if '0' ≤ c ∧ c ≤ '9' then some (c.toNat - '0'.toNat)
  else if 'a' ≤ c ∧ c ≤ 'f' then some (c.toNat - 'a'.toNat + 10)
  else if 'A' ≤ c ∧ c ≤ 'F' then some (c.toNat - 'A'.toNat + 10)
  else none

/-- The value of a digit that the base has. -/
def digit? (base : Nat) (c : Char) : Option Nat :=
  (hexDigit? c).filter (· < base)

/-- The number with the given digits, the first one weighing most, if each of them is a digit of the
base. -/
def value? (base : Nat) (digits : List Char) : Option Nat :=
  digits.foldlM (fun n c => (digit? base c).map (base * n + ·)) 0

/-- The number with the given hexadecimal digits. -/
def hexValue? (digits : List Char) : Option Nat :=
  value? 16 digits

/-- The character with the given hexadecimal digits as its code point. -/
def hexChar? (digits : List Char) : Option Char :=
  (hexValue? digits).bind fun n => if n.isValidChar then some (Char.ofNat n) else none

end Nonlocal.Text
