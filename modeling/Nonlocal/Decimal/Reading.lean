import Nonlocal.Decimal.Binary64

/-!
Reading decimal text as a double.

`nearest` rounds a decimal to the nearest double. `read?` accepts the notations of a number given by
hand: an optional sign before digits with an optional point and exponent, or one of the words for
infinity and for an undefined number, in any letter case.
-/

namespace Nonlocal.Decimal

/-- The double nearest to `± m · 10 ^ e`. Outside the range of exponents that a double can show, the
answer is known without computing the power of ten. -/
def nearest (negative : Bool) (m : Nat) (e : Int) : Float :=
  let magnitude : Int := (Nat.toDigits 10 m).length + e
  let x : Float :=
    if m = 0 ∨ magnitude < -330 then 0.0
    else if 320 < magnitude then 1.0 / 0.0
    else if e < 0 then Float.ofScientific m true (-e).toNat
    else Float.ofScientific m false e.toNat
  if negative then -x else x

/-- The value of a list of decimal digits. -/
def digitsValue (digits : List Char) : Nat :=
  digits.foldl (fun n c => 10 * n + (c.toNat - '0'.toNat)) 0

/-- Splits off the longest start that consists of digits. -/
def spanDigits (cs : List Char) : List Char × List Char :=
  (cs.takeWhile Char.isDigit, cs.dropWhile Char.isDigit)

/-- Splits off a sign; the flag tells whether it was a minus. -/
def spanSign : List Char → Bool × List Char
  | '-' :: cs => (true, cs)
  | '+' :: cs => (false, cs)
  | cs => (false, cs)

/-- The exponent that follows the digits of a number: nothing, or a mark with at least one digit. -/
def readExponent? : List Char → Option Int
  | [] => some 0
  | mark :: cs =>
    let (negative, cs) := spanSign cs
    let (digits, rest) := spanDigits cs
    if (mark = 'e' ∨ mark = 'E') ∧ digits ≠ [] ∧ rest = [] then
      some (if negative then -(digitsValue digits : Int) else digitsValue digits)
    else none

/-- An unsigned number in digits: at least one digit stands before or after the point. -/
def readUnsigned? (negative : Bool) (cs : List Char) : Option Float :=
  let (whole, rest) := spanDigits cs
  let (fraction, rest) := match rest with
    | '.' :: more => spanDigits more
    | _ => ([], rest)
  if whole = [] ∧ fraction = [] then none
  else
    (readExponent? rest).map fun exponent =>
      nearest negative (digitsValue (whole ++ fraction)) (exponent - fraction.length)

/-- Reads a number given by hand. -/
def read? (text : String) : Option Float :=
  let (negative, cs) := spanSign text.toList
  let word := String.ofList (cs.map Char.toLower)
  if word = "nan" then some (0.0 / 0.0)
  else if word = "inf" ∨ word = "infinity" then
    some (if negative then -(1.0 / 0.0) else 1.0 / 0.0)
  else readUnsigned? negative cs

end Nonlocal.Decimal
