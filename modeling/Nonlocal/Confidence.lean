import Nonlocal.Clamp
import Nonlocal.Numerics

/-!
Confidence intervals of estimated correlators, in the normal approximation.
-/

namespace Nonlocal.Confidence

variable {K : Type} [Numerics K]

/-- The number of standard deviations to either side that hold the given share of a normal
distribution. The share is folded into the unit interval and kept below certainty. -/
def deviations (level : K) : K :=
  let level := Scalar.min (Clamp.unit level) (1 - Scalar.ofScientific 1 true 12)
  Numerics.normalQuantile (1 / 2 + level / 2)

/-- Half the width of the interval around an estimate, `z √((1 - e²) / shots)`. -/
def halfWidth (e : K) (shots : UInt64) (level : K) : K :=
  let e := Clamp.expectation e
  deviations level * Scalar.sqrt ((1 - e * e) / Scalar.ofNat (Nat.max 1 shots.toNat))

end Nonlocal.Confidence
