import Nonlocal.Confidence
import Nonlocal.Report.Basic
import Nonlocal.Sampler

/-!
A run in progress: a computation that can fail and that takes random words from a generator. A run
that fails leaves the generator where it was when it failed.
-/

namespace Nonlocal

namespace Run

variable {K : Type} [Numerics K]

/-- The result of evaluating terms exactly and by sampling. -/
structure Measurement (K : Type) where
  correlators : Correlators K
  shotsPerTerm : UInt64
  estimates : List K
  sampled : K
  confidence : K

/-- The share of runs in which an interval covers the exact value. -/
def confidenceLevel : K := Scalar.ofScientific 99 true 2

/-- Half the width of the confidence interval of a sum of estimates. -/
def jointHalfWidth (values : List K) (shots : UInt64) : K :=
  Scalar.sqrt (values.foldl (fun acc e =>
    let w := Confidence.halfWidth e shots confidenceLevel
    acc + w * w) 0)

/-- Evaluates terms in a state, then samples them with an equal share of the shots each. -/
def measure (ρ : DensityMatrix K) (terms : List (Term K)) (shots : Int64) :
    Run K (Measurement K) := do
  let correlators ← (Correlators.evaluate ρ terms : Except (Error K) (Correlators K))
  let shotsPerTerm := Clamp.shotsPerTerm shots terms.length
  let (estimates, sampled) ← Sampler.sampleCorrelators correlators shotsPerTerm
  return { correlators, shotsPerTerm, estimates, sampled
           confidence := jointHalfWidth correlators.values shotsPerTerm }

end Run

end Nonlocal
