import Nonlocal.Scalar

/-!
The clamp policy: a number outside its range is folded into the range instead of being refused, and
a NaN becomes zero. A noisy or sloppy request thus still gives a reproducible run.
-/

namespace Nonlocal.Clamp

variable {K : Type} [Scalar K]

/-- Folds a number into `[lo, hi]`; a NaN becomes zero. -/
def into (lo hi x : K) : K :=
  if Scalar.isNaN x then 0
  else if Scalar.lt x lo then lo
  else if Scalar.lt hi x then hi
  else x

/-- The largest probability that the depolarizing channel is run with. -/
def maxDepolarizing : K := 1 / 2

/-- Folds a depolarizing probability into `[0, 1/2]`; a NaN means no noise. -/
def depolarizing (p : K) : K :=
  into 0 maxDepolarizing p

/-- Folds an expectation value into the physical range `[-1, 1]`. -/
def expectation (e : K) : K :=
  into (-1) 1 e

/-- Folds a number into the unit interval. -/
def unit (x : K) : K :=
  into 0 1 x

/-- The shots that each of `terms` correlators receives from a total budget: an equal share rounded
down, and never less than one. -/
def shotsPerTerm (total : Int64) (terms : Nat) : UInt64 :=
  UInt64.ofNat (Nat.max 1 (total.toInt.toNat / Nat.max 1 terms))

end Nonlocal.Clamp
