/-!
Binary64 numbers taken apart.

A finite double is an exact dyadic rational. `Binary64.ofFloat` reads it off the bits as sign,
significand and power of two, so that decimal text can be produced from it in exact arithmetic on
natural numbers.
-/

namespace Nonlocal

/-- What the bits of a double stand for; a finite one is `± significand · 2 ^ exponent`. -/
inductive Binary64 where
  | nan
  | infinite (negative : Bool)
  | finite (negative : Bool) (significand : Nat) (exponent : Int)

namespace Binary64

/-- Decodes the 64 bits of a double. -/
def ofBits (bits : UInt64) : Binary64 :=
  let negative := bits >>> 63 == 1
  let field := ((bits >>> 52) &&& 0x7ff).toNat
  let fraction := (bits &&& 0xfffffffffffff).toNat
  if field = 0x7ff then
    if fraction = 0 then .infinite negative else .nan
  else if field = 0 then .finite negative fraction (-1074)
  else .finite negative (Nat.pow 2 52 + fraction) (field - 1075)

/-- Decodes a double. -/
def ofFloat (x : Float) : Binary64 :=
  ofBits x.toBits

end Binary64

/-- A nonnegative rational, as the exact value of a decimal or binary expansion. -/
structure Ratio where
  num : Nat
  den : Nat

namespace Ratio

/-- The value of `m · 2 ^ e`. -/
def ofBinary (m : Nat) (e : Int) : Ratio :=
  if e < 0 then ⟨m, Nat.pow 2 (-e).toNat⟩ else ⟨m * Nat.pow 2 e.toNat, 1⟩

/-- The value of `m · 10 ^ e`. -/
def ofDecimal (m : Nat) (e : Int) : Ratio :=
  if e < 0 then ⟨m, Nat.pow 10 (-e).toNat⟩ else ⟨m * Nat.pow 10 e.toNat, 1⟩

/-- Scales by a power of ten. -/
def shift (q : Ratio) (e : Int) : Ratio :=
  if e < 0 then ⟨q.num, q.den * Nat.pow 10 (-e).toNat⟩
  else ⟨q.num * Nat.pow 10 e.toNat, q.den⟩

/-- The nearest natural number; a value halfway between two goes to the even one. -/
def roundEven (q : Ratio) : Nat :=
  let whole := q.num / q.den
  let rest := q.num % q.den
  if 2 * rest < q.den then whole
  else if q.den < 2 * rest then whole + 1
  else whole + whole % 2

/-- Is the value below the power of ten with this exponent? -/
def belowPowerOfTen (q : Ratio) (e : Int) : Bool :=
  let bound := ofDecimal 1 e
  q.num * bound.den < bound.num * q.den

/-- The exponent `e` with `10 ^ e ≤ q < 10 ^ (e + 1)`, for a value that is not zero: the number of
digits of numerator and denominator leaves two candidates. -/
def decimalExponent (q : Ratio) : Int :=
  let guess : Int := (Nat.toDigits 10 q.num).length - (Nat.toDigits 10 q.den).length
  if q.belowPowerOfTen guess then guess - 1 else guess

end Ratio

end Nonlocal
