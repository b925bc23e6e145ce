/-!
The numbers that a simulation is carried out in.

Everything from the measurement operators to the privacy bounds is written once, over any type with
the operations of `Scalar`. Run on `Float` the operations are those of IEEE binary64 arithmetic, in
the order in which the formulas state them; the same formulas read over the real numbers say what
the simulation computes exactly. Comparisons answer with a `Bool`, because a NaN is unordered: it
is neither below, nor above, nor equal to anything.
-/

namespace Nonlocal

/-- Arithmetic, comparison and the elementary functions used by the simulator. -/
class Scalar (K : Type) extends Add K, Sub K, Mul K, Div K, Neg K where
  /-- The number nearest to a natural number. -/
  ofNat : Nat → K
  /-- The number nearest to `m · 10 ^ e`, or to `m / 10 ^ e` when the flag is set. -/
  ofScientific : Nat → Bool → Nat → K
  /-- Half the circumference of the unit circle. -/
  pi : K
  /-- Strictly below. -/
  lt : K → K → Bool
  /-- Below or equal. -/
  le : K → K → Bool
  /-- Equal as numbers; the two zeros are equal and a NaN equals nothing. -/
  eq : K → K → Bool
  /-- Is this the outcome of an undefined operation? -/
  isNaN : K → Bool
  /-- Is this neither infinite nor NaN? -/
  isFinite : K → Bool
  /-- The integer part, toward zero. -/
  truncate : K → Int
  /-- The greatest whole number that is not above. -/
  floor : K → K
  /-- Absolute value. -/
  abs : K → K
  /-- Square root. -/
  sqrt : K → K
  /-- Length of the hypotenuse over two legs, without intermediate overflow. -/
  hypot : K → K → K
  /-- Sine of an angle in radians. -/
  sin : K → K
  /-- Cosine of an angle in radians. -/
  cos : K → K
  /-- Natural logarithm. -/
  log : K → K
  /-- Logarithm to base two. -/
  log2 : K → K
  /-- Power with an arbitrary exponent. -/
  pow : K → K → K

namespace Scalar

instance (priority := low) instOfNat {K : Type} [Scalar K] {n : Nat} : OfNat K n :=
  ⟨Scalar.ofNat n⟩

instance (priority := low) instOfScientific {K : Type} [Scalar K] : OfScientific K :=
  ⟨Scalar.ofScientific⟩

variable {K : Type} [Scalar K]

/-- The smaller of two numbers; a NaN gives way to the other one. -/
def min (a b : K) : K :=
  if isNaN a then b else if isNaN b then a else if lt b a then b else a

/-- The larger of two numbers; a NaN gives way to the other one. -/
def max (a b : K) : K :=
  if isNaN a then b else if isNaN b then a else if lt a b then b else a

/-- Sum of a list, from the left. -/
def sum (xs : List K) : K :=
  xs.foldl (· + ·) 0

/-- Multiplies `acc` by `base ^ n`, squaring the base once per binary digit of `n` and multiplying
at each set digit, lowest first. -/
def powNatFrom (acc base : K) (n : Nat) : K :=
  if h : n = 0 then acc
  else
    have : n / 2 < n := Nat.div_lt_self (Nat.pos_of_ne_zero h) (by decide)
    powNatFrom (if n % 2 = 1 then acc * base else acc) (base * base) (n / 2)
termination_by n

/-- A natural power, by repeated squaring. -/
def powNat (base : K) (n : Nat) : K :=
  powNatFrom 1 base n

end Scalar

/-! ## Binary64 -/

/-- The hypotenuse in binary64: the longer leg is taken out of the root, so that no square
overflows. An infinite leg makes the result infinite even next to a NaN. -/
private def binaryHypotenuse (a b : Float) : Float :=
  let a := a.abs
  let b := b.abs
  if a.isInf || b.isInf then 1.0 / 0.0
  else
    let long := if a < b then b else a
    let short := if a < b then a else b
    if long == 0.0 then 0.0
    else
      let ratio := short / long
      long * (1.0 + ratio * ratio).sqrt

instance : Scalar Float where
  ofNat := Float.ofNat
  ofScientific := Float.ofScientific
  pi := 3.141592653589793
  lt a b := a < b
  le a b := a ≤ b
  eq a b := a == b
  isNaN := Float.isNaN
  isFinite := Float.isFinite
  truncate x := x.toInt64.toInt
  floor := Float.floor
  abs := Float.abs
  sqrt := Float.sqrt
  hypot := binaryHypotenuse
  sin := Float.sin
  cos := Float.cos
  log := Float.log
  log2 := Float.log2
  pow := Float.pow

end Nonlocal
