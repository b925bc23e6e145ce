import Nonlocal.Proofs.Privacy.Extremes

/-!
Pure states, white noise, and the privacy report.

A pure state is a projector, so that its eigenvalues are zero and one, and white noise has only one
eigenvalue. Hence these states are where the metrics reach their extremes. Main statement:
`privacy_extremes`.
-/

namespace Nonlocal

open Matrix Exact Privacy

variable {q : ℕ}

/-! ## Spectra -/

/-- The vector of a pure state has norm one. -/
theorem projector_mul_self {v : Fin (basisSize q) → ℂ} (state : IsState (projector v)) :
    projector v * projector v = projector v := by
  have unit : star v ⬝ᵥ v = 1 := by
    rw [dotProduct_comm, ← trace_vecMulVec]
    exact state.trace_eq
  rw [projector, vecMulVec_mul_vecMulVec, unit, one_smul]

theorem spectrum_projector_subset {v : Fin (basisSize q) → ℂ} (state : IsState (projector v)) :
    spectrum ℝ (projector v) ⊆ {0, 1} :=
  IsIdempotentElem.spectrum_subset ℝ (projector_mul_self state)

theorem spectrum_white (q : ℕ) :
    spectrum ℝ ((1 / basisSize q : ℂ) • (1 : Operator q)) = {1 / (basisSize q : ℝ)} := by
  have inhabited : Nonempty (Fin (basisSize q)) := ⟨⟨0, basisSize_pos q⟩⟩
  have scalar : (1 / basisSize q : ℂ) • (1 : Operator q) =
      algebraMap ℝ (Operator q) (1 / basisSize q) := by
    ext i j
    by_cases same : i = j <;> simp [same, Algebra.algebraMap_eq_smul_one]
  rw [scalar, spectrum.scalar_eq]

/-- The probability vector of a physical state consists of its eigenvalues. -/
theorem IsState.exists_eigenvalues [Kernels] (finds : Kernels.FindsSpectrum) {M : Operator q}
    (state : IsState M) : ∃ xs : List ℝ, (DensityMatrix.ofMatrix M).eigenvalues = xs.map finite ∧
      xs ≠ [] ∧ xs.length = basisSize q ∧ ∀ p ∈ shares xs, p ∈ spectrum ℝ M := by
  rcases finds state.positive.1 with ⟨xs, same, found⟩
  have vector := state.isDistribution.perm same.symm
  refine ⟨xs, found, List.ne_nil_of_length_pos vector.length_pos, ?_, fun p inside => ?_⟩
  · rw [same.length_eq, List.length_ofFn]
  · rw [vector.shares_eq, same.mem_iff, List.mem_ofFn'] at inside
    rcases inside with ⟨i, rfl⟩
    exact state.positive.1.eigenvalues_mem_spectrum_real i

/-! ## States -/

/-- The states that the constructors of pure states give. -/
inductive PreparedPure : DensityMatrix Exact → Prop
  | ghz (n : ℕ) : PreparedPure (.ghz n)
  | product {settings : List (Setting Exact)} {ρ : DensityMatrix Exact}
      (finiteAngles : ∀ s ∈ settings, s.isFinite = true)
      (accepted : DensityMatrix.product settings = .ok ρ) : PreparedPure ρ
  | ofVector {ψ : List ℂ} {ρ : DensityMatrix Exact}
      (accepted : DensityMatrix.ofVector (ψ.map .ofComplex) = .ok ρ) : PreparedPure ρ

open DensityMatrix in
theorem PreparedPure.exists_projector {ρ : DensityMatrix Exact} (pure : PreparedPure ρ) :
    ∃ (q : ℕ) (v : Fin (basisSize q) → ℂ), ρ = .ofMatrix (projector v) ∧ IsState (projector v) := by
  cases pure with
  | ghz n => exact ⟨_, _, ghz_eq n, isState_ghz (clampQubits_pos n)⟩
  | product finiteAngles accepted =>
    rcases product_eq finiteAngles accepted with ⟨result, -, -⟩
    exact ⟨_, _, result, isState_product _⟩
  | ofVector accepted =>
    rcases ofVector_eq accepted with ⟨q, size, -, -, large, result⟩
    exact ⟨q, _, result, isState_normalized size large⟩

section Extremes

variable [Kernels] (finds : Kernels.FindsSpectrum) {bounds : PrivacyBounds Exact}
  (comparable : bounds.IsComparable)

include finds comparable

theorem isHighest_analyze {ρ : DensityMatrix Exact} (pure : PreparedPure ρ) (digest : Exact) :
    IsHighest bounds ρ.dimension (analyze bounds ρ digest) := by
  rcases pure.exists_projector with ⟨q, v, rfl, state⟩
  rcases state.exists_eigenvalues finds with ⟨xs, found, nonempty, size, eigenvalues⟩
  have vertex : ∀ p ∈ shares xs, p = 0 ∨ p = 1 := fun p inside =>
    spectrum_projector_subset state (eigenvalues p inside)
  have highest := isHighest_analyzeSpectrum comparable nonempty digest vertex
  rw [size, ← found] at highest
  exact highest

theorem isLowest_analyze (n : ℕ) (digest : Exact) :
    IsLowest (DensityMatrix.maximallyMixed n : DensityMatrix Exact).dimension
      (analyze bounds (.maximallyMixed n) digest) := by
  rw [DensityMatrix.maximallyMixed_eq]
  rcases (isState_white (DensityMatrix.clampQubits n)).exists_eigenvalues finds with
    ⟨xs, found, nonempty, size, eigenvalues⟩
  have uniform : ∀ p ∈ shares xs, p = 1 / xs.length := fun p inside => by
    have only := eigenvalues p inside
    rwa [spectrum_white, Set.mem_singleton_iff, ← size] at only
  have lowest := isLowest_analyzeSpectrum comparable nonempty digest uniform
  rw [size, ← found] at lowest
  exact lowest

end Extremes

/-- Ranges and extremes of the privacy metrics. The eigenvalues become a probability vector, which
is uniform if they vanish and does not change if they are scaled or if any of their signs are turned
around. The metrics of a report on `k` eigenvalues lie within their ranges; at the upper ends of
these are the pure states of all constructors, and at the lower ends is white noise. -/
theorem privacy_extremes [Kernels] (finds : Kernels.FindsSpectrum) {bounds : PrivacyBounds Exact}
    (comparable : bounds.IsComparable) :
    (∀ xs : List ℝ, xs ≠ [] → ∃ ps : List ℝ, probabilities (xs.map finite) = ps.map finite ∧
      ps.length = xs.length ∧ IsDistribution ps ∧
      ((∀ x ∈ xs, x = 0) → ps = List.replicate xs.length (1 / (xs.length : ℝ))) ∧
      (∀ c : ℝ, c ≠ 0 → probabilities ((xs.map (c * ·)).map finite) = ps.map finite) ∧
      (∀ ys : List ℝ, ys.map abs = xs.map abs → probabilities (ys.map finite) = ps.map finite) ∧
      ∀ digest, IsWithin bounds xs.length (analyzeSpectrum bounds (xs.map finite) digest)) ∧
    (∀ ρ : DensityMatrix Exact, PreparedPure ρ → ∀ digest,
      IsHighest bounds ρ.dimension (analyze bounds ρ digest)) ∧
    ∀ (n : ℕ) (digest : Exact),
      IsLowest (DensityMatrix.maximallyMixed n : DensityMatrix Exact).dimension
        (analyze bounds (.maximallyMixed n) digest) := by
  refine ⟨fun xs nonempty => ⟨shares xs, probabilities_finite xs, length_shares xs,
    isDistribution_shares nonempty, shares_of_vanishing, fun c scaled => ?_, fun ys flipped => ?_,
    isWithin_analyzeSpectrum comparable nonempty⟩,
    fun ρ pure => isHighest_analyze finds comparable pure, isLowest_analyze finds comparable⟩
  · have magnitudes : (xs.map (c * ·)).map abs = xs.map fun x => |c| * |x| := by
      rw [List.map_map]
      exact List.map_congr_left fun x _ => abs_mul c x
    rw [probabilities_finite, shares_congr (abs_pos.mpr scaled) magnitudes]
  · have magnitudes : ys.map abs = xs.map fun x => 1 * |x| := by
      rw [flipped]
      exact List.map_congr_left fun x _ => (one_mul |x|).symm
    rw [probabilities_finite, shares_congr one_pos magnitudes]

/-- Five entangled qubits and three qubits of white noise under the standard bounds, and spectra
that vanish or have numbers of both signs. -/
theorem privacy_extremes_standard :
    let _ : Kernels := .standard
    let bounds : PrivacyBounds Exact := .standard
    Kernels.FindsSpectrum ∧ bounds.IsComparable ∧
    (analyze bounds (.ghz 5) (finite 12)).reyniDivergence = finite (64 * Real.log 32) ∧
    (analyze bounds (.maximallyMixed 3) (finite 0)).entropyLeakBits = finite (2 ^ 24)⁻¹ ∧
    probabilities [finite 0, finite 0] = [finite (1 / 2), finite (1 / 2)] ∧
    IsWithin bounds 3 (analyzeSpectrum bounds [finite (-1), finite 0, finite 3] .nan) := by
  intro standard bounds
  have finds : Kernels.FindsSpectrum := Kernels.standard_findsSpectrum
  have comparable : bounds.IsComparable := PrivacyBounds.standard_isComparable
  rcases privacy_extremes finds comparable with ⟨spectra, pure, white⟩
  refine ⟨finds, comparable, ?_, ?_, ?_, ?_⟩
  · have scale : bounds.reyniScale.toReal = 64 := Nat.cast_ofNat
    have size : (DensityMatrix.ghz 5 : DensityMatrix Exact).dimension = 32 := rfl
    have highest := (pure _ (.ghz 5) (finite 12)).divergence
    rwa [scale, size, Nat.cast_ofNat] at highest
  · have size : (DensityMatrix.maximallyMixed 3 : DensityMatrix Exact).dimension = 8 := rfl
    have power : ((8 : ℕ) : ℝ) ^ 8 = 2 ^ 24 := by norm_num
    have lowest := (white 3 (finite 0)).leak
    rwa [size, power] at lowest
  · rcases spectra [0, 0] (List.cons_ne_nil _ _) with ⟨ps, found, -, -, uniform, -⟩
    have level : ps = [1 / 2, 1 / 2] := by
      simpa using uniform (by simp)
    rwa [level] at found
  · rcases spectra [-1, 0, 3] (List.cons_ne_nil _ _) with ⟨-, -, -, -, -, -, -, within⟩
    exact within .nan

end Nonlocal
