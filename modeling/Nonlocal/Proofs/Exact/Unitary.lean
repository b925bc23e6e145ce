import Mathlib.Analysis.InnerProductSpace.GramSchmidtOrtho
import Nonlocal.Proofs.Exact.Quantile
import Nonlocal.Proofs.Privacy.Spectrum

/-!
Unitary factors of complex matrices.

What is assumed of the kernel is that one of the factors of every complex matrix is unitary
(`Kernels.FindsUnitary`). Making the columns orthonormal one after another, and going on with any
orthonormal columns where those of the matrix depend on each other, gives such factors: their
product is the matrix, and the other factor is upper triangular
(`Kernels.exists_orthonormal_factors`).
-/

namespace Nonlocal

open Matrix

variable {n : ℕ}

/-- The kernel factors every complex matrix into a unitary one and another one. -/
def Kernels.FindsUnitary [Kernels] : Prop :=
  ∀ {n : ℕ} (M : Matrix (Fin n) (Fin n) ℂ), ∃ Q R : Matrix (Fin n) (Fin n) ℂ,
    Kernels.unitaryFactors (.ofMatrix M) = (.ofMatrix Q, .ofMatrix R) ∧ Q ∈ unitaryGroup (Fin n) ℂ

/-- The entries of every random matrix are complex numbers. -/
def Kernels.HasFiniteGinibre [Kernels] : Prop :=
  ∀ (n : ℕ) (seed : String), ∃ G : Matrix (Fin n) (Fin n) ℂ,
    Kernels.ginibre n seed = .ofMatrix G

/-! ## Orthonormal columns -/

/-- The columns of a matrix. -/
noncomputable def columns (M : Matrix (Fin n) (Fin n) ℂ) (j : Fin n) : EuclideanSpace ℂ (Fin n) :=
  WithLp.toLp 2 fun i => M i j

/-- The columns of a matrix made orthonormal, and completed to a basis. -/
noncomputable def orthonormalColumns (M : Matrix (Fin n) (Fin n) ℂ) :
    OrthonormalBasis (Fin n) ℂ (EuclideanSpace ℂ (Fin n)) :=
  InnerProductSpace.gramSchmidtOrthonormalBasis finrank_euclideanSpace (columns M)

/-- The factor whose columns are orthonormal. -/
noncomputable def unitaryFactor (M : Matrix (Fin n) (Fin n) ℂ) : Matrix (Fin n) (Fin n) ℂ :=
  (EuclideanSpace.basisFun (Fin n) ℂ).toBasis.toMatrix (orthonormalColumns M)

/-- The coordinates of the columns of a matrix. -/
noncomputable def triangularFactor (M : Matrix (Fin n) (Fin n) ℂ) : Matrix (Fin n) (Fin n) ℂ :=
  (orthonormalColumns M).toBasis.toMatrix (columns M)

theorem unitaryFactor_mem_unitaryGroup (M : Matrix (Fin n) (Fin n) ℂ) :
    unitaryFactor M ∈ unitaryGroup (Fin n) ℂ :=
  (EuclideanSpace.basisFun (Fin n) ℂ).toMatrix_orthonormalBasis_mem_unitary _

theorem isUpperTriangular_triangularFactor (M : Matrix (Fin n) (Fin n) ℂ) :
    (triangularFactor M).IsUpperTriangular :=
  InnerProductSpace.gramSchmidtOrthonormalBasis_inv_isUpperTriangular _ _

theorem unitaryFactor_mul_triangularFactor (M : Matrix (Fin n) (Fin n) ℂ) :
    unitaryFactor M * triangularFactor M = M := by
  rw [unitaryFactor, triangularFactor, ← OrthonormalBasis.coe_toBasis,
    Module.Basis.toMatrix_mul_toMatrix]
  ext i j
  rfl

namespace Kernels

/-- A matrix for a seed: its rows repeat the characters of the seed, each row from another one on, so
that different seeds have different matrices. -/
noncomputable def seededMatrix (n : ℕ) (seed : String) : Matrix (Fin n) (Fin n) ℂ :=
  fun i j => ((seed.toList.map Char.toNat).getD (i.val + j.val) 0 : ℕ) + Complex.I

/-- The kernels by their definitions, with factors for dependent columns too. -/
noncomputable abbrev orthonormal : Kernels where
  eigenvalues := spectrum
  unitaryFactors m :=
    (.ofMatrix (unitaryFactor m.toMatrix), .ofMatrix (triangularFactor m.toMatrix))
  normalQuantile := quantileAt
  ginibre n seed := .ofMatrix (seededMatrix n seed)
  binomial n p := Binomial.count n (Exact.finite p)

theorem exists_orthonormal_factors (M : Matrix (Fin n) (Fin n) ℂ) :
    ∃ Q R : Matrix (Fin n) (Fin n) ℂ,
      orthonormal.unitaryFactors (.ofMatrix M) = (.ofMatrix Q, .ofMatrix R) ∧
      Q ∈ unitaryGroup (Fin n) ℂ ∧ R.IsUpperTriangular ∧ Q * R = M := by
  refine ⟨unitaryFactor M, triangularFactor M, ?_, unitaryFactor_mem_unitaryGroup M,
    isUpperTriangular_triangularFactor M, unitaryFactor_mul_triangularFactor M⟩
  change (SquareMatrix.ofMatrix (unitaryFactor (SquareMatrix.ofMatrix M).toMatrix), _) = _
  rw [toMatrix_ofMatrix]

theorem orthonormal_findsUnitary : @FindsUnitary .orthonormal := by
  intro n M
  obtain ⟨Q, R, factors, orthonormal, -, -⟩ := exists_orthonormal_factors M
  exact ⟨Q, R, factors, orthonormal⟩

theorem orthonormal_hasFiniteGinibre : @HasFiniteGinibre .orthonormal :=
  fun n seed => ⟨seededMatrix n seed, rfl⟩

end Kernels

end Nonlocal
