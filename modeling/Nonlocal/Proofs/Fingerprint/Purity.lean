import Mathlib.Analysis.Matrix.Spectrum
import Mathlib.Algebra.Order.Chebyshev
import Nonlocal.Proofs.Privacy.Purity

/-!
The purity of a matrix: the sum of the squared moduli of its entries.

A unitary keeps it, on either side (`purity_mul_left`, `purity_mul_right`), so that for a Hermitian
matrix it is the sum of the squared eigenvalues. For a physical state of dimension `d` it lies
between `1 / d` and one; one is reached by the pure states alone (`IsState.purity_eq_one_iff`), and
white noise does not raise it (`IsState.purity_mixNoise_le`).
-/

namespace Nonlocal

open Matrix Exact

section Matrices

variable {n : ℕ} (M : Matrix (Fin n) (Fin n) ℂ)

/-- The sum of the squared moduli of all entries. -/
noncomputable def purity : ℝ :=
  ∑ i, ∑ j, Complex.normSq (M i j)

theorem purity_nonneg : 0 ≤ purity M :=
  Finset.sum_nonneg fun _ _ => Finset.sum_nonneg fun _ _ => Complex.normSq_nonneg _

theorem purity_conjTranspose : purity Mᴴ = purity M := by
  rw [purity, Finset.sum_comm, purity]
  simp only [conjTranspose_apply, Complex.star_def, Complex.normSq_conj]

theorem purity_eq_trace : (purity M : ℂ) = (M * Mᴴ).trace := by
  rw [purity, Complex.ofReal_sum, trace]
  refine Finset.sum_congr rfl fun i _ => ?_
  rw [diag_apply, mul_apply, Complex.ofReal_sum]
  exact Finset.sum_congr rfl fun j _ => (Complex.mul_conj (M i j)).symm

variable {M} {U : Matrix (Fin n) (Fin n) ℂ}

theorem purity_mul_right (unitary : U ∈ unitaryGroup (Fin n) ℂ) : purity (M * U) = purity M := by
  have cancels : M * U * (M * U)ᴴ = M * Mᴴ := by
    rw [conjTranspose_mul, Matrix.mul_assoc, ← Matrix.mul_assoc U, ← star_eq_conjTranspose U,
      mem_unitaryGroup_iff.mp unitary, Matrix.one_mul]
  apply Complex.ofReal_injective
  rw [purity_eq_trace, purity_eq_trace, cancels]

theorem purity_mul_left (unitary : U ∈ unitaryGroup (Fin n) ℂ) : purity (U * M) = purity M := by
  rw [← purity_conjTranspose, conjTranspose_mul, ← star_eq_conjTranspose U,
    purity_mul_right (Unitary.star_mem unitary), purity_conjTranspose]

theorem purity_diagonal (d : Fin n → ℝ) :
    purity (diagonal (RCLike.ofReal ∘ d : Fin n → ℂ)) = ∑ i, d i ^ 2 := by
  refine Finset.sum_congr rfl fun i _ => ?_
  rw [Finset.sum_eq_single i]
  · rw [diagonal_apply_eq, Function.comp_apply, sq]
    exact Complex.normSq_ofReal _
  · intro j _ other
    rw [diagonal_apply_ne' _ other, Complex.normSq_zero]
  · exact fun outside => absurd (Finset.mem_univ i) outside

theorem purity_eq_sum_eigenvalues (h : M.IsHermitian) :
    purity M = ∑ i, h.eigenvalues i ^ 2 := by
  conv_lhs => rw [h.spectral_theorem, Unitary.conjStarAlgAut_apply]
  rw [purity_mul_right (Unitary.star_mem h.eigenvectorUnitary.2),
    purity_mul_left h.eigenvectorUnitary.2, purity_diagonal]

end Matrices

/-! ## States -/

namespace IsState

variable {q : ℕ} {M : Operator q} (state : IsState M)
include state

theorem sum_eigenvalues : ∑ i, state.positive.1.eigenvalues i = 1 := by
  have distribution := state.isDistribution.sum_eq
  rwa [List.sum_ofFn] at distribution

theorem eigenvalues_le_one (i : Fin (basisSize q)) : state.positive.1.eigenvalues i ≤ 1 :=
  state.isDistribution.le_one ((List.mem_ofFn' _ _).mpr ⟨i, rfl⟩)

/-- An eigenvalue is not below its square. -/
theorem sq_eigenvalues_le (i : Fin (basisSize q)) :
    state.positive.1.eigenvalues i ^ 2 ≤ state.positive.1.eigenvalues i :=
  pow_le_of_le_one (state.positive.eigenvalues_nonneg i) (state.eigenvalues_le_one i) two_ne_zero

theorem purity_le_one : purity M ≤ 1 := by
  rw [purity_eq_sum_eigenvalues state.positive.1, ← state.sum_eigenvalues]
  exact Finset.sum_le_sum fun i _ => state.sq_eigenvalues_le i

theorem inv_le_purity : 1 / (basisSize q : ℝ) ≤ purity M := by
  have size : (0 : ℝ) < basisSize q := Nat.cast_pos.mpr (basisSize_pos q)
  have spread := sq_sum_le_card_mul_sum_sq (s := Finset.univ) (f := state.positive.1.eigenvalues)
  rw [state.sum_eigenvalues, Finset.card_univ, Fintype.card_fin, one_pow] at spread
  rw [purity_eq_sum_eigenvalues state.positive.1, div_le_iff₀' size]
  exact spread

/-- A state whose eigenvalues have the sum of squares one has a single one that does not vanish. -/
theorem exists_eigenvalues_eq_single (pure : purity M = 1) :
    ∃ k, state.positive.1.eigenvalues = Pi.single k 1 := by
  have squares :
      ∑ i, (state.positive.1.eigenvalues i - state.positive.1.eigenvalues i ^ 2) = 0 := by
    rw [Finset.sum_sub_distrib, state.sum_eigenvalues, ← purity_eq_sum_eigenvalues, pure, sub_self]
  have idempotent (i) : state.positive.1.eigenvalues i - state.positive.1.eigenvalues i ^ 2 = 0 :=
    (Finset.sum_eq_zero_iff_of_nonneg fun i _ => sub_nonneg.mpr (state.sq_eigenvalues_le i)).mp
      squares i (Finset.mem_univ i)
  obtain ⟨k, -, occupied⟩ : ∃ k ∈ Finset.univ, state.positive.1.eigenvalues k ≠ 0 :=
    Finset.exists_ne_zero_of_sum_ne_zero (state.sum_eigenvalues.trans_ne one_ne_zero)
  have full : state.positive.1.eigenvalues k = 1 := by
    apply mul_left_cancel₀ occupied
    linear_combination -idempotent k
  have others : ∑ i ∈ Finset.univ.erase k, state.positive.1.eigenvalues i = 0 := by
    have parts := Finset.add_sum_erase Finset.univ state.positive.1.eigenvalues (Finset.mem_univ k)
    rw [full, state.sum_eigenvalues] at parts
    linarith
  refine ⟨k, funext fun i => ?_⟩
  by_cases same : i = k
  · rw [same, full, Pi.single_eq_same]
  · rw [Pi.single_eq_of_ne same]
    exact (Finset.sum_eq_zero_iff_of_nonneg fun i _ => state.positive.eigenvalues_nonneg i).mp
      others i (Finset.mem_erase.mpr ⟨same, Finset.mem_univ i⟩)

/-- Pure are exactly the states of a single vector. -/
theorem purity_eq_one_iff : purity M = 1 ↔ ∃ v, M = projector v := by
  constructor
  · intro pure
    obtain ⟨k, single⟩ := state.exists_eigenvalues_eq_single pure
    refine ⟨fun i => state.positive.1.eigenvectorUnitary.1 i k, ?_⟩
    conv_lhs => rw [state.positive.1.spectral_theorem, Unitary.conjStarAlgAut_apply, single]
    ext i j
    rw [mul_apply, Finset.sum_eq_single k]
    · simp [projector, vecMulVec_apply]
    · intro l _ other
      simp [mul_diagonal, other]
    · exact fun outside => absurd (Finset.mem_univ k) outside
  · rintro ⟨v, rfl⟩
    apply Complex.ofReal_injective
    rw [purity_eq_trace, state.positive.1, projector_mul_self state, state.trace_eq,
      Complex.ofReal_one]

/-! ## White noise -/

/-- White noise draws the purity toward that of white noise. -/
theorem purity_mixNoise (p : ℝ) :
    purity (Nonlocal.mixNoise p M) =
      1 / basisSize q + (1 - p) ^ 2 * (purity M - 1 / basisSize q) := by
  have size : (basisSize q : ℂ) ≠ 0 := Nat.cast_ne_zero.mpr (basisSize_pos q).ne'
  have hermitian := (state.isNormalized.mixNoise p).hermitian
  have square : (M * M).trace = purity M := by
    rw [purity_eq_trace, state.positive.1]
  apply Complex.ofReal_injective
  rw [purity_eq_trace, hermitian, Nonlocal.mixNoise, Matrix.add_mul, Matrix.mul_add, Matrix.mul_add]
  simp only [Matrix.smul_mul, Matrix.mul_smul, Matrix.mul_one, Matrix.one_mul, trace_add,
    trace_smul, trace_one, state.trace_eq, square, smul_eq_mul, Fintype.card_fin]
  push_cast
  field_simp
  ring

theorem purity_mixNoise_le {p r : ℝ} (le : p ≤ r) (share : r ≤ 1) :
    purity (Nonlocal.mixNoise r M) ≤ purity (Nonlocal.mixNoise p M) := by
  have excess := sub_nonneg.mpr state.inv_le_purity
  have kept : 0 ≤ 1 - r := sub_nonneg.mpr share
  rw [state.purity_mixNoise, state.purity_mixNoise]
  gcongr

end IsState

end Nonlocal
