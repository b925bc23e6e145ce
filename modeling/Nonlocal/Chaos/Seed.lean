import Nonlocal.Clamp
import Nonlocal.Error
import Nonlocal.Text.Blank
import Nonlocal.Text.Digit

/-!
From a hexadecimal seed to a number of the unit interval, and the logistic map that stirs it.
-/

namespace Nonlocal

namespace Seed

/-- The digits that a seed takes part with: the first sixteen after blanks and one mark of
hexadecimal notation. -/
def leadingDigits (seed : String) : List Char :=
  let digits := match Text.trimBlanks seed.toList with
    | '0' :: 'x' :: rest => rest
    | '0' :: 'X' :: rest => rest
    | digits => digits
  digits.take 16

/-- The upper 64 bits of a seed, or all of a shorter one. -/
def upperBits (K : Type) (seed : String) : Except (Error K) Nat :=
  let head := leadingDigits seed
  match Text.hexValue? head with
  | some value => if head = [] then .error (.malformed (.seedNotHexadecimal seed)) else .ok value
  | none => .error (.malformed (.seedNotHexadecimal seed))

/-- The seed as a fraction of `2 ^ 64`. The largest seeds round up to the whole; they are kept
below one. -/
def fraction {K : Type} [Scalar K] (seed : String) : Except (Error K) K := do
  let value ← upperBits K seed
  return Scalar.min (Scalar.ofNat value / Scalar.ofNat UInt64.size)
    (1 - 1 / Scalar.ofNat (Nat.pow 2 53))

end Seed

/-- Iterates `x ← r x (1 - x)` and folds the last value into the unit interval. -/
def logisticMap {K : Type} [Scalar K] (seed r : K) (steps : Nat) : K :=
  Clamp.unit (Nat.repeat (fun x => r * x * (1 - x)) steps seed)

end Nonlocal
