import Nonlocal.Proofs.Privacy.Metrics
import Nonlocal.Proofs.Privacy.Spectrum
import Nonlocal.Proofs.Run.Chaos
import Nonlocal.Proofs.Run.Success

/-!
The privacy verdict under the standard thresholds.

A spectrum of `k` eigenvalues has at most `logb 2 k` bits of entropy, which bounds the leak from
below (`two_rpow_le_leak`). On six qubits and fewer this bound is above the threshold, so that the
verdict is negative for every state, and in particular for every chaos run
(`standard_verdict_negative`).
-/

namespace Nonlocal

open Exact

namespace Privacy

/-- The leak of a spectrum is at least that of a uniform one. -/
theorem two_rpow_le_leak {xs : List ℝ} {q : ℕ} (size : xs.length = 2 ^ q) :
    (2 : ℝ) ^ (-(q * 2 ^ q : ℝ)) ≤ 2 ^ (-entropyBits (shares xs) * xs.length) := by
  have nonempty : xs ≠ [] := List.ne_nil_of_length_pos (size ▸ Nat.two_pow_pos q)
  have count : (xs.length : ℝ) = 2 ^ q := by
    rw [size, Nat.cast_pow, Nat.cast_ofNat]
  have most : entropyBits (shares xs) ≤ q := by
    have bound := (isDistribution_shares nonempty).entropyBits_le
    rwa [length_shares, count, Real.logb_pow, Real.logb_self_eq_one one_lt_two, mul_one] at bound
  apply Real.rpow_le_rpow_of_exponent_le one_le_two
  rw [count, neg_mul]
  gcongr

theorem standard_threshold_eq :
    (PrivacyBounds.standard : PrivacyBounds Exact).maxEntropyLeakBits = finite 1e-154 :=
  rfl

/-- The standard threshold is below the least leak of six qubits. -/
theorem threshold_lt_two_rpow {q : ℕ} (small : q ≤ 6) :
    (1e-154 : ℝ) < 2 ^ (-(q * 2 ^ q : ℝ)) := by
  have largest : (q * 2 ^ q : ℝ) ≤ (384 : ℕ) := by
    have product : q * 2 ^ q ≤ 6 * 2 ^ 6 :=
      Nat.mul_le_mul small (Nat.pow_le_pow_right two_pos small)
    exact_mod_cast product
  -- The power is squared once more because its exponent is too large to be evaluated directly.
  calc (1e-154 : ℝ) < ((2 ^ 192) ^ 2)⁻¹ := by norm_num
    _ = 2 ^ (-((384 : ℕ) : ℝ)) := by
      rw [← pow_mul, Real.rpow_neg zero_le_two, Real.rpow_natCast]
    _ ≤ 2 ^ (-(q * 2 ^ q : ℝ)) :=
      Real.rpow_le_rpow_of_exponent_le one_le_two (neg_le_neg largest)

variable [Kernels]

theorem satisfied_standard_eq_false {ρ : DensityMatrix Exact} (spectrum : HasRealSpectrum ρ)
    (small : ρ.qubits ≤ 6) (digest : Exact) :
    (analyze .standard ρ digest).satisfied = false := by
  obtain ⟨xs, found, size⟩ := spectrum
  have nonempty : xs ≠ [] := List.ne_nil_of_length_pos (size ▸ Nat.two_pow_pos _)
  have exceeded := (threshold_lt_two_rpow small).trans_le (two_rpow_le_leak size)
  have refused : Scalar.le (analyze .standard ρ digest).entropyLeakBits
      (PrivacyBounds.standard : PrivacyBounds Exact).maxEntropyLeakBits = false := by
    rw [analyze, found, entropyLeakBits_eq _ _ nonempty, standard_threshold_eq, finite_le]
    exact decide_eq_false (not_le.mpr exceeded)
  change (Scalar.le (analyze .standard ρ digest).entropyLeakBits
    (PrivacyBounds.standard : PrivacyBounds Exact).maxEntropyLeakBits && _ && _) = false
  rw [refused, Bool.false_and, Bool.false_and]

end Privacy

namespace Run

variable [Kernels]

theorem isNormalizedOn_disturbedRegister (options : RunOptions Exact) (chaos : ChaosVector Exact) :
    IsNormalizedOn 5 (disturbedRegister options chaos) := by
  rw [disturbedRegister, noise_eq]
  exact Noise.run_isNormalized [.depolarize options.depolarizing, .perturb (noiseOf chaos)]
    (isNormalizedOn_ghz ezphQubits)

end Run

open Run

/-- Under the standard thresholds no state of at most six qubits is judged private, whatever its
spectrum. Hence no chaos run reports that it satisfies them, whatever its settings, its source of
chaos, its noise level, its number of shots and its generator are. -/
theorem standard_verdict_negative [Kernels]
    (spectra : ∀ q ρ, IsNormalizedOn q ρ → HasRealSpectrum ρ) :
    (∀ ρ : DensityMatrix Exact, HasRealSpectrum ρ → ρ.qubits ≤ 6 →
      ∀ digest, (Privacy.analyze .standard ρ digest).satisfied = false) ∧
    ∀ config : EngineConfig Exact, config.privacy = .standard →
      ∀ source settings options g report g',
        (ezph config source settings options).run g = (.ok report, g') →
          report.privacy.satisfied = false := by
  refine ⟨fun ρ spectrum small digest => Privacy.satisfied_standard_eq_false spectrum small digest,
    ?_⟩
  intro config standard source settings options g report g' returned
  obtain ⟨chaos, digest, privacy⟩ := privacy_of_run_ezph returned
  have register := isNormalizedOn_disturbedRegister options chaos
  have small : (disturbedRegister options chaos).qubits ≤ 6 := by
    obtain ⟨M, same, -⟩ := register
    rw [same]
    exact Nat.le_succ 5
  rw [privacy, standard]
  exact Privacy.satisfied_standard_eq_false (spectra 5 _ register) small digest

/-- The entangled state of six qubits, with a digest that is undefined, and a run without settings
whose chaos is out of range. -/
theorem standard_verdict_negative_six :
    let _ : Kernels := .standard
    let ρ : DensityMatrix Exact := .ghz 6
    let source : ChaosSource Exact :=
      fun _ => ⟨⟨.infinite false, .nan, 0⟩, ⟨0, 2, .nan⟩, finite (-7)⟩
    let options : RunOptions Exact := { shots := 0, depolarizing := .infinite true }
    let g := Generator.ofSeed Sampler.chaosSeed
    (∀ q ρ, IsNormalizedOn q ρ → HasRealSpectrum ρ) ∧
    (ρ.qubits = 6 ∧ (Privacy.analyze .standard ρ .nan).satisfied = false) ∧
    ∃ report g', (ezph .standard source none options).run g = (.ok report, g') ∧
      report.privacy.satisfied = false := by
  intro standard ρ source options g
  have spectra : ∀ q ρ, IsNormalizedOn q ρ → HasRealSpectrum ρ :=
    fun _ _ normalized => Kernels.standard_findsSpectrum.hasRealSpectrum normalized
  obtain ⟨states, runs⟩ := standard_verdict_negative spectra
  have accepted : ∃ fraction : Exact, Seed.fraction fallbackSeed = .ok fraction := ⟨_, rfl⟩
  obtain ⟨fraction, read⟩ := accepted
  obtain ⟨report, g', returned⟩ :=
    @exists_run_ezph Exact _ _ none fraction _ read .standard source options g
  exact ⟨spectra, ⟨rfl, states ρ (spectra _ ρ (isNormalizedOn_ghz 6)) le_rfl .nan⟩,
    report, g', returned, runs .standard rfl source none options g report g' returned⟩

end Nonlocal
