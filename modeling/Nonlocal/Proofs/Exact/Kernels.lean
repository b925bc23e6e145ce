import Mathlib.Analysis.Matrix.Spectrum
import Mathlib.Probability.CDF
import Mathlib.Probability.Distributions.Gaussian.Real
import Nonlocal.Linear.Unitary
import Nonlocal.Proofs.Run.Sampling

/-!
The numerical kernels over exact numbers, by their definitions: the spectrum of a Hermitian matrix,
orthonormalization of the columns, the quantiles of the standard normal distribution, and the counts
of the drawing procedure.
-/

namespace Nonlocal

/-- The complex matrix of an array of amplitudes with finite parts. -/
def SquareMatrix.toMatrix {n : ℕ} (m : SquareMatrix Exact n) : Matrix (Fin n) (Fin n) ℂ :=
  fun i j => ⟨(m.entry i j).re.toReal, (m.entry i j).im.toReal⟩

namespace Kernels

open Classical in
/-- The eigenvalues of a Hermitian matrix with their multiplicities. -/
noncomputable def spectrum {n : ℕ} (m : SquareMatrix Exact n) : List Exact :=
  if h : m.toMatrix.IsHermitian then (List.ofFn h.eigenvalues).map .finite else []

/-- The least number below which a standard normal variable lies with probability `p`. -/
noncomputable def quantile (p : ℝ) : ℝ :=
  sInf {x | p ≤ ProbabilityTheory.cdf (ProbabilityTheory.gaussianReal 0 1) x}

/-- The quantile of a probability; at the ends of the unit interval it is infinite. -/
noncomputable def quantileAt : Exact → Exact
  | .finite p =>
    if p < 0 ∨ 1 < p then .nan
    else if p = 0 then .infinite true
    else if p = 1 then .infinite false
    else .finite (quantile p)
  | _ => .nan

/-- The kernels by their definitions. For every seed the random matrix is the identity. -/
noncomputable abbrev standard : Kernels where
  eigenvalues := spectrum
  unitaryFactors := Unitary.factors
  normalQuantile := quantileAt
  ginibre _ _ := SquareMatrix.ofFn fun i j => if i = j then Amplitude.ofScalar 1 else 0
  binomial n p := Binomial.count n (Exact.finite p)

end Kernels

end Nonlocal
