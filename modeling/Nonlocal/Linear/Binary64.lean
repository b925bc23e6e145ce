import Nonlocal.Linear.Jacobi
import Nonlocal.Linear.Unitary
import Nonlocal.Numerics
import Nonlocal.Random.Binomial
import Nonlocal.Random.Normal

/-!
The numerical kernels in binary64.

No random matrix is drawn: a fingerprint is the same for every matrix with finite entries, and here
the matrix of every seed is the identity.
-/

namespace Nonlocal

instance : Numerics Float where
  eigenvalues := Jacobi.eigenvalues
  unitaryFactors := Unitary.factors
  normalQuantile := Normal.quantile
  ginibre _ _ := SquareMatrix.ofFn fun i j => if i = j then Amplitude.ofScalar 1 else 0
  binomial := Binomial.draw?

end Nonlocal
