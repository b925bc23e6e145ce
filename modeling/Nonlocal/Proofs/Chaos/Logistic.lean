import Nonlocal.Proofs.Chaos.Fraction
import Nonlocal.Proofs.Chaos.Window
import Nonlocal.Projection

/-!
Logistic orbits.

For a rate of at most four the logistic map does not leave the unit interval, because a number and
its complement multiply to one quarter at most (`Logistic.step_mem`). The rates of accepted tunings
are such rates, and the fractions of seeds lie in the unit interval (`Seed.IsFraction.mem`); so the
orbits that chaos is sampled from never have to be folded back (`logistic_orbits_stay`).
-/

namespace Nonlocal

open Exact

namespace Logistic

/-- One iteration over the real numbers. -/
def step (r x : ℝ) : ℝ :=
  r * x * (1 - x)

theorem step_mem {r x : ℝ} (positive : 0 < r) (bounded : r ≤ 4) (inside : x ∈ Set.Icc 0 1) :
    step r x ∈ Set.Icc 0 1 := by
  obtain ⟨nonneg, le_one⟩ := inside
  have product : x * (1 - x) ≤ 1 / 4 := by
    have square := sq_nonneg (x - 1 / 2)
    linarith
  constructor
  · exact mul_nonneg (mul_nonneg positive.le nonneg) (sub_nonneg.mpr le_one)
  · calc step r x = r * (x * (1 - x)) := mul_assoc r x (1 - x)
      _ ≤ r * (1 / 4) := mul_le_mul_of_nonneg_left product positive.le
      _ ≤ 1 := by linarith

theorem iterate_step_mem {r x : ℝ} (positive : 0 < r) (bounded : r ≤ 4)
    (inside : x ∈ Set.Icc 0 1) (n : ℕ) : (step r)^[n] x ∈ Set.Icc 0 1 := by
  induction n with
  | zero => exact inside
  | succ n ih =>
    rw [Function.iterate_succ_apply']
    exact step_mem positive bounded ih

/-- The number after some iterations, before it is folded into the unit interval. -/
def orbit {K : Type} [Scalar K] (r seed : K) (n : ℕ) : K :=
  Nat.repeat (fun x => r * x * (1 - x)) n seed

theorem orbit_finite (r x : ℝ) (n : ℕ) :
    orbit (finite r) (finite x) n = finite ((step r)^[n] x) := by
  induction n with
  | zero => rfl
  | succ n ih =>
    have next : orbit (finite r) (finite x) (n + 1) =
        finite r * orbit (finite r) (finite x) n * (1 - orbit (finite r) (finite x) n) := rfl
    rw [next, ih, one_eq, finite_sub, finite_mul, finite_mul, Function.iterate_succ_apply', step]

end Logistic

namespace Seed

/-- The numbers that the fraction of a seed can be, without rounding or with it. -/
def IsFraction (f : Exact) : Prop :=
  (∃ seed, fraction seed = .ok f) ∨
    ∃ seed, ∃ rounded : Float, ∃ q : ℚ, fraction seed = .ok rounded ∧
      Binary64.value? rounded = some q ∧ f = finite q

/-- The fraction of the upper bits `n`, without rounding. -/
noncomputable def realShare (n : ℕ) : ℝ :=
  min (n / 2 ^ 64) (1 - 1 / 2 ^ 53)

theorem realShare_mem (n : ℕ) : realShare n ∈ Set.Ico (0 : ℝ) 1 := by
  constructor
  · exact le_min (by positivity) (by norm_num)
  · exact (min_le_right _ _).trans_lt (by norm_num)

theorem fraction_of_upperBits {seed : String} {n : ℕ} (bits : upperBits Exact seed = .ok n) :
    fraction seed = .ok (finite (realShare n)) := by
  have words : ((UInt64.size : ℕ) : ℝ) = 2 ^ 64 := by norm_num [UInt64.size]
  have digits : ((Nat.pow 2 53 : ℕ) : ℝ) = 2 ^ 53 := Nat.cast_pow 2 53
  rw [fraction, bits]
  change Except.ok (Scalar.min (finite n / finite UInt64.size)
    (1 - 1 / finite (Nat.pow 2 53 : ℕ))) = _
  rw [words, digits, one_eq, finite_div _ (by positivity), finite_div _ (by positivity),
    finite_sub, min_finite, realShare]

theorem exists_fraction_exact {seed : String} {f : Exact} (read : fraction seed = .ok f) :
    ∃ x ∈ Set.Ico (0 : ℝ) 1, f = finite x := by
  obtain ⟨n, bits⟩ := exists_upperBits_iff.mpr (exists_fraction_iff.mp ⟨f, read⟩)
  rw [fraction_of_upperBits bits] at read
  cases read
  exact ⟨_, realShare_mem n, rfl⟩

theorem exists_fraction_rounded {seed : String} {f : Float} (read : fraction seed = .ok f) :
    ∃ q ∈ Set.Ico (0 : ℚ) 1, Binary64.value? f = some q := by
  obtain ⟨digits, has⟩ : ∃ digits, HasDigits seed digits := ⟨_, hasDigits_iff.mpr rfl⟩
  rw [fraction_eq has] at read
  split_ifs at read with accepted
  cases read
  exact ⟨_, exactShare_bounds _, value?_share accepted.bits_lt⟩

theorem IsFraction.mem {f : Exact} (fraction : IsFraction f) :
    ∃ x ∈ Set.Icc (0 : ℝ) 1, f = finite x := by
  rcases fraction with ⟨seed, read⟩ | ⟨seed, rounded, q, read, value, rfl⟩
  · obtain ⟨x, ⟨nonneg, below⟩, same⟩ := exists_fraction_exact read
    exact ⟨x, ⟨nonneg, below.le⟩, same⟩
  · obtain ⟨q', ⟨nonneg, below⟩, value'⟩ := exists_fraction_rounded read
    cases Option.some.inj (value.symm.trans value')
    exact ⟨q, ⟨Rat.cast_nonneg.mpr nonneg, by exact_mod_cast below.le⟩, rfl⟩

end Seed

namespace EngineConfig

/-- The rates of accepted tunings. -/
theorem exists_logisticR {config : EngineConfig Exact} (accepted : config.validate = .ok ()) :
    ∃ r : ℝ, config.chaos.logisticR = finite r ∧ 0 < r ∧ r ≤ 4 := by
  obtain ⟨⟨positive, bounded⟩, -⟩ := validate_eq_ok_iff.mp accepted
  have four : (4 : Exact) = finite 4 := congrArg finite Nat.cast_ofNat
  rw [zero_eq] at positive
  rw [four] at bounded
  rcases rate : config.chaos.logisticR with r | negative | _
  case finite =>
    rw [rate, finite_lt, decide_eq_true_eq] at positive
    rw [rate, finite_le, decide_eq_true_eq] at bounded
    exact ⟨r, rfl, positive, bounded⟩
  case infinite =>
    rw [rate] at positive bounded
    cases negative
    · cases bounded
    · cases positive
  case nan =>
    rw [rate] at positive
    cases positive

end EngineConfig

/-- Logistic orbits of accepted tunings, from every number that the fraction of a seed can be: they
do not leave the unit interval, for any number of iterations. So the logistic map gives the last
number of the orbit as it is, and that number is also the third entry of the noise of a sample and
its coordinate along the axes that it is shown on. -/
theorem logistic_orbits_stay {config : EngineConfig Exact} (accepted : config.validate = .ok ())
    {f : Exact} (fraction : Seed.IsFraction f) :
    let orbit := Logistic.orbit config.chaos.logisticR f
    (∀ n, ∃ x ∈ Set.Icc (0 : ℝ) 1, orbit n = finite x) ∧
    (∀ n, logisticMap f config.chaos.logisticR n = orbit n) ∧
    let sample := ChaosVector.sample config.chaos f
    let last := orbit config.chaos.logisticSteps.toNat
    sample.logistic = last ∧ sample.noise[2]? = some last ∧
      (∃ along, (Projection.ofChaos sample).get? .temporal = some along ∧ along.vector.z = last) ∧
      ∃ along, (Projection.ofChaos sample).get? .entropy = some along ∧ along.vector.x = last := by
  intro orbit
  obtain ⟨r, rate, positive, bounded⟩ := config.exists_logisticR accepted
  obtain ⟨x, inside, rfl⟩ := fraction.mem
  have stays (n : ℕ) : ∃ y ∈ Set.Icc (0 : ℝ) 1, orbit n = finite y := by
    refine ⟨_, Logistic.iterate_step_mem positive bounded inside n, ?_⟩
    rw [← Logistic.orbit_finite, ← rate]
  have unfolded (n : ℕ) : logisticMap (finite x) config.chaos.logisticR n = orbit n := by
    obtain ⟨y, within, reached⟩ := stays n
    change Clamp.unit (orbit n) = orbit n
    rw [reached, unit_of_mem within]
  refine ⟨stays, unfolded, ?_⟩
  intro sample last
  have coordinate : sample.logistic = last := unfolded config.chaos.logisticSteps.toNat
  refine ⟨coordinate, ?_, ⟨_, rfl, coordinate⟩, ⟨_, rfl, coordinate⟩⟩
  obtain ⟨y, within, reached⟩ := stays config.chaos.logisticSteps.toNat
  have entry : sample.noise[2]? = some (Clamp.expectation sample.logistic) := rfl
  have same : last = finite y := reached
  have small : |y| ≤ 1 := (abs_of_nonneg within.1).trans_le within.2
  rw [entry, coordinate, same, expectation_of_abs_le_one small]

/-- The largest rate takes one half to the end of the unit interval, and not beyond it. -/
theorem logistic_orbits_stay_top :
    let chaos : ChaosConfig Exact :=
      { ChaosConfig.standard with logisticR := 4, logisticSteps := 1 }
    let config : EngineConfig Exact := { EngineConfig.standard with chaos }
    config.validate = .ok () ∧ Seed.fraction "8000000000000000" = .ok (finite (1 / 2)) ∧
      (ChaosVector.sample chaos (finite (1 / 2))).noise[2]? = some (finite 1) := by
  intro chaos config
  have four : (4 : Exact) = finite 4 := congrArg finite Nat.cast_ofNat
  have accepted : config.validate = .ok () := by
    have sound : EngineConfig.spanIsSound (⟨0, Scalar.ofNat 20, 512, 8⟩ : TimeSpan Exact) = true :=
      EngineConfig.spanIsSound_from_zero (by decide) (by decide) (by decide)
    obtain ⟨-, others⟩ :=
      EngineConfig.validate_eq_ok_iff.mp (EngineConfig.validate_standardOver sound)
    refine EngineConfig.validate_eq_ok_iff.mpr ⟨?_, others⟩
    change Scalar.lt 0 (4 : Exact) = true ∧ Scalar.le (4 : Exact) 4 = true
    rw [four, zero_eq, finite_lt, finite_le]
    norm_num
  have half : Seed.fraction "8000000000000000" = .ok (finite (1 / 2)) := by
    have digits : Seed.HasDigits "8000000000000000" ('8' :: List.replicate 15 '0') :=
      Seed.hasDigits_iff.mpr (by decide +kernel)
    have word : Seed.upperBits Exact "8000000000000000" = .ok (2 ^ 63) := by
      rw [Seed.upperBits_eq digits, if_pos (by decide +kernel)]
      exact congrArg Except.ok (by decide +kernel)
    rw [Seed.fraction_of_upperBits word, Seed.realShare]
    norm_num
  obtain ⟨-, -, -, third, -⟩ := logistic_orbits_stay accepted (.inl ⟨_, half⟩)
  refine ⟨accepted, half, third.trans ?_⟩
  change some (Logistic.orbit 4 (finite (1 / 2)) 1) = _
  rw [four, Logistic.orbit_finite, Function.iterate_one, Logistic.step]
  norm_num

end Nonlocal
