import Nonlocal.Decimal.Places

/-!
The shortest decimal that reads back as a given double.

Every real number in an interval around a double is read as that double. For one digit, two digits,
and so on up to seventeen, the two decimals next to the double are tested against the interval; the
first count with a hit wins, the nearer of two hits is taken, and a tie goes to the even digit. If
any decimal of that many digits lies in the interval, so does one of the two neighbours, so none
that reads back is shorter.
-/

namespace Nonlocal.Decimal

/-- A positive decimal `digits · 10 ^ exponent`. -/
structure Scaled where
  digits : Nat
  exponent : Int

/-- The decimals that read back as the double `m · 2 ^ e`, described in quarters of its unit: they
lie between `4 m - below` and `4 m + 2`, ends included when `m` is even. -/
structure Interval where
  significand : Nat
  exponent : Int

namespace Interval

/-- Distance to the lower end in quarters of a unit. It is halved where the doubles below are twice
as dense, at a power of two above the least normal number. -/
def below (i : Interval) : Nat :=
  if i.significand = Nat.pow 2 52 ∧ i.exponent ≠ -1074 then 1 else 2

/-- Does the decimal `d` lie in the interval? -/
def contains (i : Interval) (d : Scaled) : Bool :=
  let unit := Ratio.ofBinary 1 (i.exponent - 2)
  let value := Ratio.ofDecimal d.digits d.exponent
  let x := value.num * unit.den
  let lo := (4 * i.significand - i.below) * unit.num * value.den
  let hi := (4 * i.significand + 2) * unit.num * value.den
  if i.significand % 2 = 0 then lo ≤ x && x ≤ hi else lo < x && x < hi

/-- The decimal with `count` significant digits that reads back, when one of the two neighbours of
the double does; `k` is the decimal exponent of the double. -/
def nearest? (i : Interval) (k : Int) (count : Nat) : Option Scaled :=
  let exponent := k - count + 1
  let scaled := (Ratio.ofBinary i.significand i.exponent).shift (-exponent)
  let lower : Scaled := ⟨scaled.num / scaled.den, exponent⟩
  let upper : Scaled := ⟨scaled.num / scaled.den + 1, exponent⟩
  match i.contains lower, i.contains upper with
  | true, true => some ⟨scaled.roundEven, exponent⟩
  | true, false => some lower
  | false, true => some upper
  | false, false => none

/-- The shortest decimal of the interval. Seventeen digits always suffice. -/
def shortest (i : Interval) : Scaled :=
  let k := (Ratio.ofBinary i.significand i.exponent).decimalExponent
  ((List.range 17).findSome? fun n => i.nearest? k (n + 1)).getD ⟨0, 0⟩

end Interval

/-- Moves trailing zeros of the digits into the exponent; `fuel` bounds the number of zeros. -/
def Scaled.normalize (d : Scaled) : Nat → Scaled
  | 0 => d
  | fuel + 1 =>
    if d.digits ≠ 0 ∧ d.digits % 10 = 0 then
      Scaled.normalize ⟨d.digits / 10, d.exponent + 1⟩ fuel
    else d

/-- The shortest decimal that reads back as `m · 2 ^ e`, without trailing zeros. -/
def shortestOf (m : Nat) (e : Int) : Scaled :=
  (Interval.shortest ⟨m, e⟩).normalize 20

/-- Writes a decimal without an exponent; a whole number has no point. -/
def Scaled.positional (d : Scaled) : String :=
  let digits := Nat.toDigits 10 d.digits
  if d.exponent < 0 then
    let places := (-d.exponent).toNat
    withPoint places (paddedDigits (places + 1) d.digits)
  else String.ofList (digits ++ List.replicate d.exponent.toNat '0')

/-- The shortest text of a double without an exponent, such as `0.1`, `7` or `-0`. -/
def plain (x : Float) : String :=
  match Binary64.ofFloat x with
  | .nan => "NaN"
  | .infinite negative => infinityText .minus negative
  | .finite negative m e =>
    SignStyle.minus.text negative ++ if m = 0 then "0" else (shortestOf m e).positional

end Nonlocal.Decimal
