import Nonlocal.Random.ChaCha
import Nonlocal.SquareMatrix

/-!
The numerical kernels that the simulator relies on and does not derive: the spectrum of a Hermitian
matrix, a unitary factor of a square matrix, the quantile function of the normal distribution, a
random matrix for a seed and binomial counts. A theorem about the simulator may assume of them what
defines them; `Nonlocal.Linear` and `Nonlocal.Random` hold the binary64 procedures.
-/

namespace Nonlocal

/-- Scalars with the kernels of numerical linear algebra and statistics. -/
class Numerics (K : Type) extends Scalar K where
  /-- The eigenvalues of a Hermitian matrix with their multiplicities. -/
  eigenvalues : {n : Nat} → SquareMatrix K n → List K
  /-- A unitary and an upper triangular factor of a matrix. -/
  unitaryFactors : {n : Nat} → SquareMatrix K n → SquareMatrix K n × SquareMatrix K n
  /-- The value below which a standard normal variable lies with the given probability. -/
  normalQuantile : K → K
  /-- The matrix of independent complex normal variables that belongs to a seed. -/
  ginibre : (n : Nat) → (seed : String) → SquareMatrix K n
  /-- The number of successes in some trials, each of which succeeds with the given probability,
  and the generator after the words that it was drawn from; none where the draw has no answer. -/
  binomial : (trials : Nat) → (p : K) → Generator → Option (Nat × Generator)

end Nonlocal
