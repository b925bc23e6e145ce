import Nonlocal.DensityMatrix

/-!
Fingerprints of a state: one number for a whole density matrix.

The unitary fingerprint turns the state with a random unitary and takes the Frobenius norm; since a
unitary keeps that norm, the number measures the purity of the state and not the seed. The other
fingerprint is the largest absolute column sum.
-/

namespace Nonlocal

/-- The ways to take a fingerprint. -/
inductive FingerprintKind where
  | unitary
  | inducedNorm
  deriving DecidableEq

namespace Fingerprint

variable {K : Type} [Numerics K]

/-- Turns each column of `q` by the phase of the diagonal entry of `r` in that column; a vanishing
entry has no phase. -/
def foldPhases {n : Nat} (q r : SquareMatrix K n) : SquareMatrix K n :=
  SquareMatrix.ofFn fun i j =>
    let diagonal := r.entry j j
    let norm := diagonal.norm
    if Scalar.lt 0 norm then q.entry i j * diagonal.divScalar norm else q.entry i j

/-- The random unitary of a seed: the unitary factor of its random matrix, with the phases folded
in. -/
def unitary (n : Nat) (seed : String) : SquareMatrix K n :=
  let (q, r) := Numerics.unitaryFactors (Numerics.ginibre n seed)
  foldPhases q r

/-- The fingerprint of a state. -/
def take (kind : FingerprintKind) (seed : String) (ρ : DensityMatrix K) : K :=
  match kind with
  | .unitary => ((unitary _ seed).mul ρ.matrix).frobeniusNorm
  | .inducedNorm => ρ.matrix.maxColumnSum

end Fingerprint

end Nonlocal
