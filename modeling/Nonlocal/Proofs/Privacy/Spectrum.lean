import Mathlib.Analysis.Matrix.HermitianFunctionalCalculus
import Mathlib.Analysis.Matrix.PosDef
import Nonlocal.Proofs.Exact.Kernels
import Nonlocal.Proofs.Privacy.Distribution
import Nonlocal.Proofs.Register.Representation

/-!
Spectra of states.

What is assumed of the eigenvalue kernel is that it finds the eigenvalues of Hermitian matrices,
each as often as its multiplicity. The spectrum of a physical state is a probability vector, and
white noise mixes it with the uniform one (`IsState.exists_spectrum`).
-/

namespace Nonlocal

open Matrix Exact

/-- The state has one real eigenvalue for each of its bit strings. -/
def HasRealSpectrum [Kernels] (ρ : DensityMatrix Exact) : Prop :=
  ∃ xs : List ℝ, ρ.eigenvalues = xs.map finite ∧ xs.length = 2 ^ ρ.qubits

/-- The kernel finds the eigenvalues of Hermitian matrices with their multiplicities, in any
order. -/
def Kernels.FindsSpectrum [Kernels] : Prop :=
  ∀ {n : ℕ} {M : Matrix (Fin n) (Fin n) ℂ} (h : M.IsHermitian),
    ∃ xs : List ℝ, xs.Perm (List.ofFn h.eigenvalues) ∧
      Kernels.eigenvalues (.ofMatrix M) = xs.map finite

section Assumption

theorem toMatrix_ofMatrix {n : ℕ} (M : Matrix (Fin n) (Fin n) ℂ) :
    (SquareMatrix.ofMatrix M).toMatrix = M := by
  ext i j
  rw [SquareMatrix.toMatrix, SquareMatrix.entry_ofMatrix]
  rfl

theorem Kernels.standard_findsSpectrum : @Kernels.FindsSpectrum .standard := by
  intro n M h
  refine ⟨_, .rfl, ?_⟩
  change Kernels.spectrum (.ofMatrix M) = _
  unfold Kernels.spectrum
  have same := toMatrix_ofMatrix M
  split
  · next h' =>
    rw [(h'.eigenvalues_eq_eigenvalues_iff h).mpr (congrArg Matrix.charpoly same)]
  · next h' => exact absurd (same.symm ▸ h) h'

variable [Kernels]

theorem Kernels.FindsSpectrum.hasRealSpectrum (finds : Kernels.FindsSpectrum) {q : ℕ}
    {ρ : DensityMatrix Exact} (hρ : IsNormalizedOn q ρ) : HasRealSpectrum ρ := by
  obtain ⟨M, rfl, hM⟩ := hρ
  obtain ⟨xs, same, found⟩ := finds hM.hermitian
  refine ⟨xs, found, ?_⟩
  rw [same.length_eq, List.length_ofFn]
  rfl

end Assumption

/-! ## White noise -/

section Noise

variable {q : ℕ} {M : Operator q}

/-- White noise acts on the eigenvalues alone. -/
theorem mixNoise_eq_cfc (h : M.IsHermitian) (p : ℝ) :
    mixNoise p M = cfc (fun x => (1 - p) * x + p / basisSize q) M := by
  have entries :
      diagonal (RCLike.ofReal ∘ (fun x => (1 - p) * x + p / basisSize q) ∘ h.eigenvalues) =
      ((1 - p : ℝ) : ℂ) • diagonal (RCLike.ofReal ∘ h.eigenvalues) +
        ((p / basisSize q : ℝ) : ℂ) • (1 : Operator q) := by
    ext i j
    by_cases same : i = j <;> simp [same]
  rw [h.cfc_eq, IsHermitian.cfc, entries, map_add, map_smul, map_smul, map_one,
    ← h.spectral_theorem]
  rfl

/-- The linear factors of the characteristic polynomial name the eigenvalues. -/
theorem perm_eigenvalues {n : ℕ} {N : Matrix (Fin n) (Fin n) ℂ} (h : N.IsHermitian) {f : Fin n → ℝ}
    (factors : N.charpoly = ∏ i, (Polynomial.X - Polynomial.C (f i : ℂ))) :
    (List.ofFn h.eigenvalues).Perm (List.ofFn f) := by
  -- Eigenvalues and factors alike are the roots of the characteristic polynomial, as a multiset.
  have roots : Finset.univ.val.map (fun i => (h.eigenvalues i : ℂ)) =
      Finset.univ.val.map (fun i => (f i : ℂ)) := by
    refine h.roots_charpoly_eq_eigenvalues.symm.trans ?_
    rw [factors, Polynomial.roots_prod]
    · simp
    · simp [Finset.prod_ne_zero_iff, Polynomial.X_sub_C_ne_zero]
  have values : Finset.univ.val.map h.eigenvalues = Finset.univ.val.map f := by
    apply Multiset.map_injective Complex.ofReal_injective
    rw [Multiset.map_map, Multiset.map_map]
    exact roots
  rw [Fin.univ_val_map, Fin.univ_val_map] at values
  exact Multiset.coe_eq_coe.mp values

theorem perm_eigenvalues_mixNoise (h : M.IsHermitian) (p : ℝ) (h' : (mixNoise p M).IsHermitian) :
    (List.ofFn h'.eigenvalues).Perm (Privacy.mix p (List.ofFn h.eigenvalues)) := by
  have factors := (congrArg Matrix.charpoly (mixNoise_eq_cfc h p)).trans (h.charpoly_cfc_eq _)
  have mixed : Privacy.mix p (List.ofFn h.eigenvalues) =
      List.ofFn fun i => (1 - p) * h.eigenvalues i + p / basisSize q := by
    rw [Privacy.mix, List.map_ofFn, List.length_ofFn]
    rfl
  rw [mixed]
  exact perm_eigenvalues h' factors

/-! ## States -/

/-- The spectrum of a physical state is a probability vector. -/
theorem IsState.isDistribution (state : IsState M) :
    Privacy.IsDistribution (List.ofFn state.positive.1.eigenvalues) where
  nonneg := by
    intro x member
    obtain ⟨i, rfl⟩ := (List.mem_ofFn' _ _).mp member
    exact state.positive.eigenvalues_nonneg i
  sum_eq := by
    have total := state.trace_eq.symm.trans state.positive.1.trace_eq_sum_eigenvalues
    rw [List.sum_ofFn]
    apply Complex.ofReal_injective
    rw [Complex.ofReal_sum, Complex.ofReal_one]
    exact total.symm

/-- Only white noise has a uniform spectrum. -/
theorem exists_eigenvalue_ne (h : M.IsHermitian)
    (uneven : M ≠ (1 / basisSize q : ℂ) • (1 : Operator q)) :
    ∃ x ∈ List.ofFn h.eigenvalues, x ≠ 1 / (basisSize q : ℝ) := by
  by_contra uniform
  push Not at uniform
  have scalar : diagonal (RCLike.ofReal ∘ h.eigenvalues) =
      (1 / basisSize q : ℂ) • (1 : Operator q) := by
    rw [smul_one_eq_diagonal]
    congr 1
    funext i
    rw [Function.comp_apply, uniform _ ((List.mem_ofFn' _ _).mpr ⟨i, rfl⟩)]
    simp
  apply uneven
  rw [h.spectral_theorem, scalar, map_smul, map_one]

/-- The eigenvalues of a state that white noise was mixed into. -/
noncomputable def IsState.noisySpectrum (state : IsState M) (p : Exact) : List ℝ :=
  Privacy.mix p.noiseLevel (List.ofFn state.positive.1.eigenvalues)

theorem IsState.length_noisySpectrum (state : IsState M) (p : Exact) :
    (state.noisySpectrum p).length = basisSize q := by
  rw [noisySpectrum, Privacy.length_mix, List.length_ofFn]

theorem IsState.isDistribution_noisySpectrum (state : IsState M) (p : Exact) :
    Privacy.IsDistribution (state.noisySpectrum p) :=
  state.isDistribution.mixed p.noiseLevel_nonneg p.noiseLevel_lt_one.le

theorem IsState.exists_noisySpectrum_ne (state : IsState M)
    (uneven : M ≠ (1 / basisSize q : ℂ) • (1 : Operator q)) (p : Exact) :
    ∃ x ∈ state.noisySpectrum p, x ≠ 1 / (state.noisySpectrum p).length := by
  apply Privacy.exists_mem_mix_ne p.noiseLevel_lt_one
  rw [List.length_ofFn]
  exact exists_eigenvalue_ne state.positive.1 uneven

variable [Kernels]

/-- The spectrum of a state under white noise. -/
theorem IsState.exists_spectrum (finds : Kernels.FindsSpectrum) (state : IsState M) (p : Exact) :
    ∃ xs : List ℝ, xs.Perm (state.noisySpectrum p) ∧
      ((DensityMatrix.ofMatrix M).depolarize p).eigenvalues = xs.map finite := by
  have noisy := state.mixNoise p.noiseLevel_nonneg p.noiseLevel_lt_one.le
  obtain ⟨xs, same, found⟩ := finds noisy.positive.1
  refine ⟨xs, same.trans (perm_eigenvalues_mixNoise state.positive.1 _ noisy.positive.1), ?_⟩
  rw [DensityMatrix.depolarize_ofMatrix]
  exact found

end Noise

end Nonlocal
