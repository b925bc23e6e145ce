import Nonlocal.Decimal.Binary64

/-!
Decimal text with a chosen number of places.

Both notations round the exact binary value to the nearest decimal, a tie going to the even digit:
`fixed` counts places after the point, `scientific` counts them after the leading digit and writes
the exponent without sign or padding when it is not negative.
-/

namespace Nonlocal.Decimal

/-- The decimal digits of a natural number, padded with zeros to at least `width` characters. -/
def paddedDigits (width n : Nat) : List Char :=
  let digits := Nat.toDigits 10 n
  List.replicate (width - digits.length) '0' ++ digits

/-- Puts a point before the last `places` of the given digits. -/
def withPoint (places : Nat) (digits : List Char) : String :=
  let whole := digits.take (digits.length - places)
  let fraction := digits.drop (digits.length - places)
  if places = 0 then String.ofList whole
  else String.ofList (whole ++ '.' :: fraction)

/-- How the sign of a number is shown. -/
inductive SignStyle where
  /-- A minus before negative numbers, the negative zero included. -/
  | minus
  /-- As `minus`, and a plus before the others. -/
  | always
  deriving DecidableEq

/-- The sign that stands before the digits. -/
def SignStyle.text (style : SignStyle) (negative : Bool) : String :=
  if negative then "-" else if style = .always then "+" else ""

/-- A value that is not a finite number, in words. -/
def infinityText (style : SignStyle) (negative : Bool) : String :=
  style.text negative ++ "inf"

/-- Fixed notation with `places` digits after the point and the sign in a given style. -/
def fixedWith (style : SignStyle) (places : Nat) (x : Float) : String :=
  match Binary64.ofFloat x with
  | .nan => "NaN"
  | .infinite negative => infinityText style negative
  | .finite negative m e =>
    let units := ((Ratio.ofBinary m e).shift places).roundEven
    style.text negative ++ withPoint places (paddedDigits (places + 1) units)

/-- Fixed notation with `places` digits after the point. -/
def fixed (places : Nat) (x : Float) : String :=
  fixedWith .minus places x

/-- Fixed notation that shows the sign of every number. -/
def signed (places : Nat) (x : Float) : String :=
  fixedWith .always places x

/-- Scientific notation with `places` digits after the point. -/
def scientific (places : Nat) (x : Float) : String :=
  match Binary64.ofFloat x with
  | .nan => "NaN"
  | .infinite negative => infinityText .minus negative
  | .finite negative m e =>
    let value := Ratio.ofBinary m e
    let (units, exponent) :=
      if m = 0 then (0, 0)
      else
        let k := value.decimalExponent
        let units := (value.shift (places - k)).roundEven
        if units < Nat.pow 10 (places + 1) then (units, k) else (units / 10, k + 1)
    SignStyle.minus.text negative ++ withPoint places (paddedDigits (places + 1) units)
      ++ "e" ++ toString exponent

end Nonlocal.Decimal
