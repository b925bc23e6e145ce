import Nonlocal.Proofs.Privacy.Metrics
import Nonlocal.Proofs.Privacy.Spectrum

/-!
The privacy metrics under white noise.

The metrics of a noisy state are those of its spectrum, which is a mixture with the uniform
distribution. A higher noise level mixes once more (`noisySpectrum_eq_mix`), so that it raises the
entropy and lowers the leak, the divergence and the distance (`depolarize_metrics`).
-/

namespace Nonlocal

open Matrix Exact Privacy

/-- Bounds that measure with a positive order which is told apart from one, and that do not turn
their metrics around. -/
structure PrivacyBounds.IsComparable (bounds : PrivacyBounds Exact) : Prop where
  order : ∃ α, bounds.reyniAlpha = finite α ∧ 0 < α ∧ 1 / 2 ^ 52 ≤ |α - 1|
  divergenceScale : ∃ s, bounds.reyniScale = finite s ∧ 0 ≤ s
  distanceScale : ∃ s, bounds.hockeyStickScale = finite s ∧ 0 ≤ s

theorem PrivacyBounds.standard_isComparable :
    (PrivacyBounds.standard : PrivacyBounds Exact).IsComparable where
  order := ⟨1.25, rfl, by norm_num, by norm_num [abs_of_pos]⟩
  divergenceScale := ⟨64, congrArg finite Nat.cast_ofNat, by norm_num⟩
  distanceScale := ⟨1e-6, rfl, by norm_num⟩

namespace IsState

variable {q : ℕ} {M : Operator q}

/-! ## More noise -/

/-- The share of white noise that turns one noise level into a higher one. -/
noncomputable def addedNoise (p r : Exact) : ℝ :=
  (r.noiseLevel - p.noiseLevel) / (1 - p.noiseLevel)

theorem noisySpectrum_eq_mix (state : IsState M) (p r : Exact) :
    state.noisySpectrum r = mix (addedNoise p r) (state.noisySpectrum p) :=
  mix_eq_mix_mix p.noiseLevel_lt_one _

theorem addedNoise_nonneg {p r : Exact} (le : p.noiseLevel ≤ r.noiseLevel) :
    0 ≤ addedNoise p r :=
  div_nonneg (sub_nonneg.mpr le) (sub_pos.mpr p.noiseLevel_lt_one).le

theorem addedNoise_pos {p r : Exact} (lt : p.noiseLevel < r.noiseLevel) : 0 < addedNoise p r :=
  div_pos (sub_pos.mpr lt) (sub_pos.mpr p.noiseLevel_lt_one)

theorem addedNoise_lt_one (p r : Exact) : addedNoise p r < 1 := by
  rw [addedNoise, div_lt_one (sub_pos.mpr p.noiseLevel_lt_one)]
  exact sub_lt_sub_right r.noiseLevel_lt_one _

section More

variable (state : IsState M) {p r : Exact}

theorem entropyBits_noisySpectrum_le (le : p.noiseLevel ≤ r.noiseLevel) :
    entropyBits (state.noisySpectrum p) ≤ entropyBits (state.noisySpectrum r) := by
  rw [state.noisySpectrum_eq_mix p r]
  exact (state.isDistribution_noisySpectrum p).entropyBits_le_mix (addedNoise_nonneg le)
    (addedNoise_lt_one p r).le

theorem entropyBits_noisySpectrum_lt (lt : p.noiseLevel < r.noiseLevel)
    (uneven : M ≠ (1 / basisSize q : ℂ) • (1 : Operator q)) :
    entropyBits (state.noisySpectrum p) < entropyBits (state.noisySpectrum r) := by
  rw [state.noisySpectrum_eq_mix p r]
  exact (state.isDistribution_noisySpectrum p).entropyBits_lt_mix (addedNoise_pos lt)
    (addedNoise_lt_one p r) (state.exists_noisySpectrum_ne uneven p)

theorem renyi_noisySpectrum_le (le : p.noiseLevel ≤ r.noiseLevel) {α : ℝ} (order : 0 < α)
    (told : α ≠ 1) : renyi α (state.noisySpectrum r) ≤ renyi α (state.noisySpectrum p) := by
  rw [state.noisySpectrum_eq_mix p r]
  exact (state.isDistribution_noisySpectrum p).renyi_mix_le (addedNoise_nonneg le)
    (addedNoise_lt_one p r).le order told

theorem fourthPowers_noisySpectrum_le (le : p.noiseLevel ≤ r.noiseLevel) :
    fourthPowers (state.noisySpectrum r) ≤ fourthPowers (state.noisySpectrum p) := by
  have kept := sub_nonneg.mpr r.noiseLevel_lt_one.le
  rw [noisySpectrum, noisySpectrum, fourthPowers_mix, fourthPowers_mix]
  gcongr
  exact fourthPowers_nonneg _

end More

section Metrics

variable [Kernels] (state : IsState M) (finds : Kernels.FindsSpectrum)
variable {bounds : PrivacyBounds Exact} (p digest : Exact)

include finds

/-! ## The metrics of a noisy state -/

/-- The probability vector that the metrics are computed from. -/
theorem exists_shares : ∃ xs ≠ [], ((DensityMatrix.ofMatrix M).depolarize p).eigenvalues =
    xs.map finite ∧ (shares xs).Perm (state.noisySpectrum p) ∧ xs.length = basisSize q := by
  obtain ⟨xs, same, found⟩ := state.exists_spectrum finds p
  have noisy := state.isDistribution_noisySpectrum p
  have vector := noisy.perm same.symm
  refine ⟨xs, List.ne_nil_of_length_pos vector.length_pos, found, ?_, ?_⟩
  · rwa [vector.shares_eq]
  · rw [same.length_eq, state.length_noisySpectrum]

theorem entropy_depolarize :
    entropy (probabilities ((DensityMatrix.ofMatrix M).depolarize p).eigenvalues) =
      finite (entropyBits (state.noisySpectrum p)) := by
  obtain ⟨xs, nonempty, found, same, -⟩ := state.exists_shares finds p
  rw [found, probabilities_finite, entropy_finite (isDistribution_shares nonempty).nonneg,
    entropyBits_perm same]

theorem entropyLeakBits_depolarize :
    (analyze bounds ((DensityMatrix.ofMatrix M).depolarize p) digest).entropyLeakBits =
      finite (2 ^ (-entropyBits (state.noisySpectrum p) * basisSize q)) := by
  obtain ⟨xs, nonempty, found, same, size⟩ := state.exists_shares finds p
  rw [analyze, found, entropyLeakBits_eq _ _ nonempty, entropyBits_perm same, size]

theorem reyniDivergence_depolarize {α s : ℝ} (order : bounds.reyniAlpha = finite α) (pos : 0 < α)
    (apart : 1 / 2 ^ 52 ≤ |α - 1|) (scale : bounds.reyniScale = finite s) :
    (analyze bounds ((DensityMatrix.ofMatrix M).depolarize p) digest).reyniDivergence =
      finite (renyi α (state.noisySpectrum p) * s) := by
  obtain ⟨xs, nonempty, found, same, -⟩ := state.exists_shares finds p
  rw [analyze, found, reyniDivergence_eq _ _ nonempty order pos apart scale, renyi_perm same]

theorem hockeyStickDelta_depolarize {s : ℝ} (scale : bounds.hockeyStickScale = finite s) :
    (analyze bounds ((DensityMatrix.ofMatrix M).depolarize p) digest).hockeyStickDelta =
      finite (fourthPowers (state.noisySpectrum p) * s) := by
  obtain ⟨xs, -, found, same, -⟩ := state.exists_shares finds p
  rw [analyze, found, hockeyStickDelta_eq _ _ scale, fourthPowers_perm same]

end Metrics

end IsState

theorem DensityMatrix.depolarize_zero {q : ℕ} (M : Operator q) :
    (ofMatrix M).depolarize (finite 0) = ofMatrix M := by
  rw [depolarize_ofMatrix, noiseLevel_zero, mixNoise_zero]

/-- A physical state under two levels of white noise. The higher level does not have less entropy,
nor a larger leak, a larger divergence or a larger distance. Entropy and leak tell different levels
apart, unless the state is white noise already, and the distance scales with the fourth power of
what is left of the state. -/
theorem depolarize_metrics [Kernels] (finds : Kernels.FindsSpectrum) {q : ℕ} {M : Operator q}
    (state : IsState M) {bounds : PrivacyBounds Exact} (comparable : bounds.IsComparable)
    {p r : Exact} (ordered : Scalar.le p r = true) (digest : Exact) :
    let ρ := DensityMatrix.ofMatrix M
    let entropyAt (x : Exact) := entropy (probabilities (ρ.depolarize x).eigenvalues)
    let reportAt (x : Exact) := analyze bounds (ρ.depolarize x) digest
    (Scalar.le (entropyAt p) (entropyAt r) = true ∧
      Scalar.le (reportAt r).entropyLeakBits (reportAt p).entropyLeakBits = true ∧
      Scalar.le (reportAt r).reyniDivergence (reportAt p).reyniDivergence = true ∧
      Scalar.le (reportAt r).hockeyStickDelta (reportAt p).hockeyStickDelta = true) ∧
    (p.noiseLevel < r.noiseLevel → M ≠ (1 / basisSize q : ℂ) • (1 : Operator q) →
      Scalar.lt (entropyAt p) (entropyAt r) = true ∧
      Scalar.lt (reportAt r).entropyLeakBits (reportAt p).entropyLeakBits = true) ∧
    ∀ x, (reportAt x).hockeyStickDelta =
      finite ((1 - x.noiseLevel) ^ 4) * (analyze bounds ρ digest).hockeyStickDelta := by
  intro ρ entropyAt reportAt
  obtain ⟨α, order, pos, apart⟩ := comparable.order
  obtain ⟨s, divergenceScale, hs⟩ := comparable.divergenceScale
  obtain ⟨s', distanceScale, hs'⟩ := comparable.distanceScale
  have told : α ≠ 1 := by
    rintro rfl
    norm_num at apart
  have entropyIs (x : Exact) : entropyAt x = _ := state.entropy_depolarize finds x
  have leakIs (x : Exact) : (reportAt x).entropyLeakBits = _ :=
    state.entropyLeakBits_depolarize finds x digest
  have divergenceIs (x : Exact) : (reportAt x).reyniDivergence = _ :=
    state.reyniDivergence_depolarize finds x digest order pos apart divergenceScale
  have distanceIs (x : Exact) : (reportAt x).hockeyStickDelta = _ :=
    state.hockeyStickDelta_depolarize finds x digest distanceScale
  have le := noiseLevel_mono ordered
  simp only [entropyIs, leakIs, divergenceIs, finite_le, finite_lt, decide_eq_true_eq]
  refine ⟨⟨state.entropyBits_noisySpectrum_le le, ?leak, ?divergence, ?distance⟩, ?strict, ?scaled⟩
  case leak =>
    have entropies := state.entropyBits_noisySpectrum_le le
    apply Real.rpow_le_rpow_of_exponent_le one_le_two
    gcongr
  case divergence =>
    exact mul_le_mul_of_nonneg_right (state.renyi_noisySpectrum_le le pos told) hs
  case distance =>
    rw [distanceIs, distanceIs, finite_le, decide_eq_true_eq]
    exact mul_le_mul_of_nonneg_right (state.fourthPowers_noisySpectrum_le le) hs'
  case strict =>
    intro lt uneven
    have entropies := state.entropyBits_noisySpectrum_lt lt uneven
    have size : (0 : ℝ) < basisSize q := Nat.cast_pos.mpr (basisSize_pos q)
    refine ⟨entropies, ?_⟩
    apply Real.rpow_lt_rpow_of_exponent_lt one_lt_two
    gcongr
  case scaled =>
    -- The state itself is the state under no noise, whose spectrum is the one that is mixed.
    intro x
    have still : (analyze bounds ρ digest).hockeyStickDelta =
        finite (fourthPowers (state.noisySpectrum (finite 0)) * s') := by
      rw [← distanceIs]
      change _ = (analyze bounds (ρ.depolarize (finite 0)) digest).hockeyStickDelta
      rw [DensityMatrix.depolarize_zero]
    rw [distanceIs, still, IsState.noisySpectrum, IsState.noisySpectrum, noiseLevel_zero, mix_zero,
      fourthPowers_mix, finite_mul, mul_assoc]

/-- The entangled state of five qubits under the standard bounds, at a tenth of white noise and at
more of it than the channel admits. -/
theorem depolarize_metrics_ghz :
    let _ : Kernels := .standard
    let M := projector (DensityMatrix.ghzVector 5)
    let ρ := DensityMatrix.ofMatrix M
    let entropyAt (x : Exact) := entropy (probabilities (ρ.depolarize x).eigenvalues)
    let reportAt (x : Exact) := analyze .standard (ρ.depolarize x) (finite 0)
    Kernels.FindsSpectrum ∧ IsState M ∧ (.standard : PrivacyBounds Exact).IsComparable ∧
    Scalar.lt (entropyAt (finite (1 / 10))) (entropyAt (finite 7)) = true ∧
    Scalar.lt (reportAt (finite 7)).entropyLeakBits (reportAt (finite (1 / 10))).entropyLeakBits =
      true ∧
    Scalar.le (reportAt (finite 7)).reyniDivergence (reportAt (finite (1 / 10))).reyniDivergence =
      true ∧
    (reportAt (finite 7)).hockeyStickDelta =
      finite (1 / 16) * (analyze .standard ρ (finite 0)).hockeyStickDelta := by
  intro standard M ρ entropyAt reportAt
  have finds : Kernels.FindsSpectrum := Kernels.standard_findsSpectrum
  have state : IsState M := isState_ghz (q := 5) (by decide)
  have comparable := PrivacyBounds.standard_isComparable
  have ordered : Scalar.le (finite (1 / 10)) (finite 7) = true := by
    rw [finite_le, decide_eq_true_eq]
    norm_num
  have low : (finite (1 / 10)).noiseLevel = 1 / 10 := by
    norm_num [noiseLevel, clamped]
  have high : (finite 7).noiseLevel = 1 / 2 := by
    norm_num [noiseLevel, clamped]
  have apart : (finite (1 / 10)).noiseLevel < (finite 7).noiseLevel := by
    rw [low, high]
    norm_num
  obtain ⟨⟨-, -, divergence, -⟩, strict, scaled⟩ :=
    depolarize_metrics finds state comparable ordered (finite 0)
  obtain ⟨entropies, leaks⟩ := strict apart (DensityMatrix.projector_ghzVector_ne (by decide))
  refine ⟨finds, state, comparable, entropies, leaks, divergence, (scaled (finite 7)).trans ?_⟩
  rw [high]
  norm_num [ρ]

end Nonlocal
