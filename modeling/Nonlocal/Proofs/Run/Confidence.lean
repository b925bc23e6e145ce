import Nonlocal.Proofs.Exact.Quantile
import Nonlocal.Proofs.Exact.Sign
import Nonlocal.Proofs.Run.Budget

/-!
Confidence intervals of correlators and of whole outcomes.

The width of an interval is a quantile times a root. The quantile is taken of a probability between
one half and one, and what is under the root is not negative, whatever was asked for
(`Confidence.halfWidth_eq`). Both are monotone in the numbers that they are computed from, and so is
the width. The width of an outcome adds up the squares of the widths of its correlators
(`Run.isJointWidth_jointHalfWidth`). Main statement: `confidence_widths`.
-/

namespace Nonlocal

open Exact

/-- The absolute value of a folded expectation is the folded absolute value. -/
theorem Exact.abs_clamped (e : Exact) : |e.clamped (-1) 1| = (Scalar.abs e).clamped 0 1 := by
  rcases e with x | s | _
  · change |max (-1) (min x 1)| = max 0 (min |x| 1)
    rcases le_total 0 x with nonneg | nonpos
    · have folded : 0 ≤ min x 1 := le_min nonneg zero_le_one
      rw [max_eq_right (by linarith), abs_of_nonneg folded, abs_of_nonneg nonneg,
        max_eq_right folded]
    · have folded : max (-1) x ≤ 0 := max_le (by norm_num) nonpos
      have mirrored : 0 ≤ min (-x) 1 := le_min (by linarith) zero_le_one
      rw [min_eq_left (by linarith), abs_of_nonpos folded, abs_of_nonpos nonpos,
        max_eq_right mirrored, max_comm, ← min_neg_neg, neg_neg]
  · cases s
    · exact abs_one
    · exact (abs_neg 1).trans abs_one
  · exact abs_zero

/-! ## One interval -/

namespace Confidence

/-- The probability whose quantile counts the standard deviations of an interval. -/
noncomputable def quantileArgument (level : Exact) : ℝ :=
  1 / 2 + min (level.clamped 0 1) (1 - 1e-12) / 2

/-- The variance of an estimated correlator. -/
noncomputable def variance (e : Exact) (shots : UInt64) : ℝ :=
  (1 - e.clamped (-1) 1 ^ 2) / Nat.max 1 shots.toNat

theorem quantileArgument_bounds (level : Exact) :
    1 / 2 ≤ quantileArgument level ∧ quantileArgument level < 1 := by
  have lower : 0 ≤ min (level.clamped 0 1) (1 - 1e-12) :=
    le_min (clamped_mem le_rfl zero_le_one level).1 (by norm_num)
  have upper : min (level.clamped 0 1) (1 - 1e-12) < 1 :=
    (min_le_right _ _).trans_lt (by norm_num)
  rw [quantileArgument]
  constructor <;> linarith

theorem quantileArgument_mono {level level' : Exact} (le : Scalar.le level level' = true) :
    quantileArgument level ≤ quantileArgument level' := by
  have folded := clamped_mono zero_le_one le
  unfold quantileArgument
  gcongr

theorem shots_pos (shots : UInt64) : (0 : ℝ) < Nat.max 1 shots.toNat :=
  Nat.cast_pos.mpr (Nat.le_max_left _ _)

/-- The variance depends on the size of an expectation alone. -/
theorem variance_eq (e : Exact) (shots : UInt64) :
    variance e shots = (1 - (Scalar.abs e).clamped 0 1 ^ 2) / Nat.max 1 shots.toNat := by
  rw [variance, ← abs_clamped, sq_abs]

theorem scatter_nonneg (e : Exact) : 0 ≤ 1 - e.clamped (-1) 1 ^ 2 := by
  obtain ⟨lower, upper⟩ := clamped_mem neg_one_lt_zero.le zero_le_one e
  exact sub_nonneg.mpr ((sq_le_one_iff_abs_le_one _).mpr (abs_le.mpr ⟨lower, upper⟩))

theorem variance_nonneg (e : Exact) (shots : UInt64) : 0 ≤ variance e shots :=
  div_nonneg (scatter_nonneg e) (shots_pos shots).le

theorem variance_anti {e e' : Exact} (le : Scalar.le (Scalar.abs e) (Scalar.abs e') = true)
    (shots : UInt64) : variance e' shots ≤ variance e shots := by
  have folded := clamped_mono zero_le_one le
  have nonneg := (clamped_mem le_rfl zero_le_one (Scalar.abs e)).1
  rw [variance_eq, variance_eq]
  gcongr

theorem variance_anti_shots (e : Exact) {shots shots' : UInt64} (le : shots ≤ shots') :
    variance e shots' ≤ variance e shots := by
  have more : Nat.max 1 shots.toNat ≤ Nat.max 1 shots'.toNat :=
    max_le_max_left 1 (UInt64.le_iff_toNat_le.mp le)
  exact div_le_div_of_nonneg_left (scatter_nonneg e) (shots_pos shots) (Nat.cast_le.mpr more)

section Widths

variable [Kernels]

theorem deviations_eq_quantile (level : Exact) :
    deviations level = Numerics.normalQuantile (finite (quantileArgument level)) := by
  have certainty : (1 - Scalar.ofScientific 1 true 12 : Exact) = finite (1 - 1e-12) := by
    rw [one_eq]
    exact finite_sub _ _
  have folded : Scalar.min (Clamp.unit level) (1 - Scalar.ofScientific 1 true 12) =
      finite (min (level.clamped 0 1) (1 - 1e-12)) := by
    rw [Clamp.unit, zero_eq, one_eq, into_finite zero_le_one, ← one_eq, certainty, min_finite]
  rw [deviations, folded, one_eq, two_eq, half_finite, half_finite, finite_add, quantileArgument]

theorem halfWidth_eq_deviations_mul (e : Exact) (shots : UInt64) (level : Exact) :
    halfWidth e shots level = deviations level * Scalar.sqrt (finite (variance e shots)) := by
  rw [halfWidth, expectation_eq, one_eq, finite_mul, finite_sub, ofNat_eq,
    finite_div _ (shots_pos shots).ne', variance, sq]

variable {z : ℝ → ℝ} (quantiles : Kernels.HasQuantiles z)
include quantiles

theorem quantile_nonneg (level : Exact) : 0 ≤ z (quantileArgument level) := by
  obtain ⟨lower, upper⟩ := quantileArgument_bounds level
  exact quantiles.half.ge.trans (quantiles.mono _ _ one_half_pos lower upper)

theorem halfWidth_eq (e : Exact) (shots : UInt64) (level : Exact) :
    halfWidth e shots level = finite (z (quantileArgument level) * √(variance e shots)) := by
  obtain ⟨lower, upper⟩ := quantileArgument_bounds level
  have quantile : (Numerics.normalQuantile (finite (quantileArgument level)) : Exact) =
      finite (z (quantileArgument level)) :=
    quantiles.finite _ (one_half_pos.trans_le lower) upper
  rw [halfWidth_eq_deviations_mul, deviations_eq_quantile, quantile,
    sqrt_finite (variance_nonneg e shots), finite_mul]

/-- The square of a width, in units of one shot. -/
theorem halfWidth_law (e : Exact) (shots : UInt64) (level : Exact) :
    ∃ w, halfWidth e shots level = finite w ∧ 0 ≤ w ∧
      w ^ 2 * Nat.max 1 shots.toNat =
        z (quantileArgument level) ^ 2 * (1 - e.clamped (-1) 1 ^ 2) := by
  have shots_ne := (shots_pos shots).ne'
  refine ⟨_, halfWidth_eq quantiles e shots level, ?_, ?_⟩
  · exact mul_nonneg (quantile_nonneg quantiles level) (Real.sqrt_nonneg _)
  · rw [mul_pow, Real.sq_sqrt (variance_nonneg e shots), variance, mul_assoc,
      div_mul_cancel₀ _ shots_ne]

theorem halfWidth_neg (e : Exact) (shots : UInt64) (level : Exact) :
    halfWidth (-e) shots level = halfWidth e shots level := by
  rw [halfWidth_eq quantiles, halfWidth_eq quantiles, variance_eq, variance_eq, abs_opposite]

/-- A width does not grow when the variance shrinks. -/
theorem halfWidth_le_of_variance {e e' : Exact} {shots shots' : UInt64}
    (le : variance e' shots' ≤ variance e shots) (level : Exact) :
    Scalar.le (halfWidth e' shots' level) (halfWidth e shots level) = true := by
  have deviations := quantile_nonneg quantiles level
  rw [halfWidth_eq quantiles, halfWidth_eq quantiles, finite_le, decide_eq_true_eq]
  gcongr

theorem halfWidth_mono_level (e : Exact) (shots : UInt64) {level level' : Exact}
    (le : Scalar.le level level' = true) :
    Scalar.le (halfWidth e shots level) (halfWidth e shots level') = true := by
  have lower := (quantileArgument_bounds level).1
  have upper := (quantileArgument_bounds level').2
  have wider := quantiles.mono _ _ (one_half_pos.trans_le lower) (quantileArgument_mono le) upper
  rw [halfWidth_eq quantiles, halfWidth_eq quantiles, finite_le, decide_eq_true_eq]
  gcongr

/-- What is certain has no interval. -/
theorem halfWidth_eq_zero {e : Exact} (beyond : Scalar.le 1 (Scalar.abs e) = true)
    (shots : UInt64) (level : Exact) : halfWidth e shots level = 0 := by
  have certain : variance e shots = 0 := by
    rw [one_eq] at beyond
    rw [variance_eq, clamped_of_le le_rfl zero_le_one beyond]
    norm_num
  rw [halfWidth_eq quantiles, certain, Real.sqrt_zero, mul_zero, zero_eq]

end Widths

end Confidence

/-! ## The interval of a sum -/

namespace Run

/-- The width of a sum of estimates that have the same number of shots: its square is the sum of the
squares of the widths at the level of ninety-nine percent. -/
def IsJointWidth (z : ℝ → ℝ) (values : List Exact) (shots : UInt64) (width : Exact) : Prop :=
  ∃ w, width = finite w ∧ 0 ≤ w ∧
    w ^ 2 = z 0.995 ^ 2 / shots.toNat * (values.map fun e => 1 - e.clamped (-1) 1 ^ 2).sum

section Joint

variable [Kernels]

theorem quantileArgument_confidenceLevel :
    Confidence.quantileArgument confidenceLevel = 0.995 := by
  have level : (confidenceLevel : Exact).clamped 0 1 = 0.99 := by
    change max 0 (min (0.99 : ℝ) 1) = 0.99
    norm_num
  rw [Confidence.quantileArgument, level]
  norm_num

variable {z : ℝ → ℝ} (quantiles : Kernels.HasQuantiles z)
include quantiles

theorem isJointWidth_jointHalfWidth (values : List Exact) {shots : UInt64}
    (some_shot : 1 ≤ shots.toNat) :
    IsJointWidth z values shots (jointHalfWidth values shots) := by
  let variances := values.map fun e => 1 - e.clamped (-1) 1 ^ 2
  have divisor : Nat.max 1 shots.toNat = shots.toNat := Nat.max_eq_right some_shot
  -- Each step of the fold adds the square of one width.
  have folded := foldl_finite
    (g := fun acc e =>
      acc + Confidence.halfWidth e shots confidenceLevel *
        Confidence.halfWidth e shots confidenceLevel)
    (f := fun e => z 0.995 ^ 2 / shots.toNat * (1 - e.clamped (-1) 1 ^ 2))
    (fun acc e => by
      rw [Confidence.halfWidth_eq quantiles, quantileArgument_confidenceLevel, finite_mul,
        finite_add, ← sq, mul_pow, Real.sq_sqrt (Confidence.variance_nonneg e shots),
        Confidence.variance, divisor]
      congr 2
      ring)
    values 0
  rw [List.sum_map_mul_left, zero_add] at folded
  have nonneg : 0 ≤ z 0.995 ^ 2 / shots.toNat * variances.sum :=
    mul_nonneg (by positivity)
      (List.sum_nonneg (List.forall_mem_map.mpr fun e _ => Confidence.scatter_nonneg e))
  refine ⟨√(z 0.995 ^ 2 / shots.toNat * variances.sum), ?_, Real.sqrt_nonneg _, Real.sq_sqrt nonneg⟩
  rw [jointHalfWidth, zero_eq, folded, sqrt_finite nonneg]

end Joint

/-! ## Outcomes -/

section Outcomes

variable {K : Type} [Numerics K] {options : RunOptions K} {g : Generator}

/-- Every measurement comes with the joint width of its correlators. -/
theorem confidence_of_run_measure {ρ : DensityMatrix K} {terms : List (Term K)} {shots : Int64}
    {m : Measurement K} (ran : ((measure ρ terms shots).run g).1 = .ok m) :
    m.confidence = jointHalfWidth m.correlators.values m.shotsPerTerm ∧
      1 ≤ m.shotsPerTerm.toNat := by
  obtain ⟨c, g₁, -, ran₁⟩ := exists_of_run_bind ran
  obtain ⟨drawn, g₂, -, ran₂⟩ := exists_of_run_bind ran₁
  cases ran₂
  exact ⟨rfl, Clamp.one_le_shotsPerTerm shots terms.length⟩

theorem confidence_of_run_twoParty {plan : TwoPartyPlan K} {o : TwoPartyOutcome K}
    (ran : ((twoParty plan options).run g).1 = .ok o) :
    o.confidence = jointHalfWidth o.correlators o.shotsPerTerm ∧ 1 ≤ o.shotsPerTerm.toNat := by
  obtain ⟨m, g₁, measured, ran₁⟩ := exists_of_run_bind ran
  cases ran₁
  exact confidence_of_run_measure (congrArg Prod.fst measured)

theorem confidence_of_run_hypergraph {plan : HypergraphPlan K} {o : HypergraphOutcome K}
    (ran : ((hypergraph plan options).run g).1 = .ok o) :
    o.confidence = jointHalfWidth o.correlators o.shotsPerTerm ∧ 1 ≤ o.shotsPerTerm.toNat := by
  obtain ⟨terms, g₁, -, ran₁⟩ := exists_of_run_bind ran
  obtain ⟨m, g₂, measured, ran₂⟩ := exists_of_run_bind ran₁
  obtain ⟨directions, g₃, -, ran₃⟩ := exists_of_run_bind ran₂
  cases ran₃
  exact confidence_of_run_measure (congrArg Prod.fst measured)

end Outcomes

end Run

/-- The outcomes in a report come with the joint widths of their correlators. -/
structure SandboxReport.HasJointWidths (z : ℝ → ℝ) (report : SandboxReport Exact) : Prop where
  twoQubit : ∀ o ∈ report.twoQubit, Run.IsJointWidth z o.correlators o.shotsPerTerm o.confidence
  fiveD : ∀ o ∈ report.fiveD, Run.IsJointWidth z o.correlators o.shotsPerTerm o.confidence

namespace Run

section Reports

variable [Kernels] {z : ℝ → ℝ} (quantiles : Kernels.HasQuantiles z) {options : RunOptions Exact}
  {g : Generator}
include quantiles

theorem isJointWidth_of_run_twoParty {plan : TwoPartyPlan Exact} {o : TwoPartyOutcome Exact}
    (ran : ((twoParty plan options).run g).1 = .ok o) :
    IsJointWidth z o.correlators o.shotsPerTerm o.confidence := by
  obtain ⟨joint, some_shot⟩ := confidence_of_run_twoParty ran
  rw [joint]
  exact isJointWidth_jointHalfWidth quantiles _ some_shot

theorem isJointWidth_of_run_hypergraph {plan : HypergraphPlan Exact} {o : HypergraphOutcome Exact}
    (ran : ((hypergraph plan options).run g).1 = .ok o) :
    IsJointWidth z o.correlators o.shotsPerTerm o.confidence := by
  obtain ⟨joint, some_shot⟩ := confidence_of_run_hypergraph ran
  rw [joint]
  exact isJointWidth_jointHalfWidth quantiles _ some_shot

/-- Entering an outcome keeps the widths of a report. -/
theorem hasJointWidths_of_run_enter {plan : EvaluationPlan Exact}
    {before after : SandboxReport Exact} (widths : before.HasJointWidths z)
    (ran : ((enter options before plan).run g).1 = .ok after) : after.HasJointWidths z := by
  rcases plan with plan | plan
  · rcases exists_of_run_enter_twoParty ran with ⟨o, outcome, rfl⟩
    refine ⟨fun _ same => ?_, widths.fiveD⟩
    cases same
    exact isJointWidth_of_run_twoParty quantiles outcome
  · rcases exists_of_run_enter_hypergraph ran with ⟨o, outcome, rfl⟩
    refine ⟨widths.twoQubit, fun _ same => ?_⟩
    cases same
    exact isJointWidth_of_run_hypergraph quantiles outcome

theorem hasJointWidths_of_run_sandbox {settings : BridgeSettings Exact}
    {report : SandboxReport Exact} (ran : ((sandbox settings options).run g).1 = .ok report) :
    report.HasJointWidths z := by
  have empty : (emptyReport options).HasJointWidths z :=
    ⟨fun o entered => absurd entered (Option.not_mem_none o),
      fun o entered => absurd entered (Option.not_mem_none o)⟩
  exact invariant_of_run_sandbox ran empty fun _ _ _ _ _ _ _ widths =>
    hasJointWidths_of_run_enter quantiles widths

end Reports

end Run

/-! ## Main statement -/

open Confidence Run

/-- How wide intervals are, for a quantile function `z` that does not decrease and vanishes at one
half. Whatever was asked for, the quantile is taken of a probability from one half to below one, the
root of a number that is not negative, and the width `w` is a real number with
`w² shots = z² (1 - e²)`, where at least one shot counts and `e` is the expectation in its range.
The width is that of the opposite expectation too; it does not grow with the absolute value of the
expectation, nor with the shots; it is zero where the expectation is certain, and it does not shrink
as the level rises. The width of an outcome adds up the squares of the widths of its correlators, in
the outcome of every two-party plan and of every hypergraph plan, and in the report of every
correlator run. -/
theorem confidence_widths [Kernels] {z : ℝ → ℝ} (quantiles : Kernels.HasQuantiles z) :
    (∀ (e : Exact) (shots : UInt64) (level : Exact),
      (1 / 2 ≤ quantileArgument level ∧ quantileArgument level < 1 ∧
        deviations level = Numerics.normalQuantile (finite (quantileArgument level))) ∧
      (0 ≤ variance e shots ∧
        halfWidth e shots level = deviations level * Scalar.sqrt (finite (variance e shots))) ∧
      ∃ w, halfWidth e shots level = finite w ∧ 0 ≤ w ∧
        w ^ 2 * Nat.max 1 shots.toNat =
          z (quantileArgument level) ^ 2 * (1 - e.clamped (-1) 1 ^ 2)) ∧
    ((∀ (e : Exact) (shots : UInt64) (level : Exact),
        halfWidth (-e) shots level = halfWidth e shots level) ∧
      (∀ (e e' : Exact) (shots : UInt64) (level : Exact),
        Scalar.le (Scalar.abs e) (Scalar.abs e') = true →
          Scalar.le (halfWidth e' shots level) (halfWidth e shots level) = true) ∧
      (∀ (e : Exact) (shots shots' : UInt64) (level : Exact), shots ≤ shots' →
        Scalar.le (halfWidth e shots' level) (halfWidth e shots level) = true) ∧
      (∀ (e : Exact) (shots : UInt64) (level : Exact), Scalar.le 1 (Scalar.abs e) = true →
        halfWidth e shots level = 0) ∧
      ∀ (e : Exact) (shots : UInt64) (level level' : Exact), Scalar.le level level' = true →
        Scalar.le (halfWidth e shots level) (halfWidth e shots level') = true) ∧
    ∀ (options : RunOptions Exact) (g : Generator),
      (∀ (plan : TwoPartyPlan Exact) (o : TwoPartyOutcome Exact),
        ((twoParty plan options).run g).1 = .ok o →
          IsJointWidth z o.correlators o.shotsPerTerm o.confidence) ∧
      (∀ (plan : HypergraphPlan Exact) (o : HypergraphOutcome Exact),
        ((hypergraph plan options).run g).1 = .ok o →
          IsJointWidth z o.correlators o.shotsPerTerm o.confidence) ∧
      ∀ (settings : BridgeSettings Exact) (report : SandboxReport Exact),
        ((sandbox settings options).run g).1 = .ok report → report.HasJointWidths z := by
  refine ⟨fun e shots level => ⟨?_, ?_, ?_⟩, ⟨?_, ?_, ?_, ?_, ?_⟩, fun options g => ⟨?_, ?_, ?_⟩⟩
  · obtain ⟨lower, upper⟩ := quantileArgument_bounds level
    exact ⟨lower, upper, deviations_eq_quantile level⟩
  · exact ⟨variance_nonneg e shots, halfWidth_eq_deviations_mul e shots level⟩
  · exact halfWidth_law quantiles e shots level
  · exact halfWidth_neg quantiles
  · exact fun e e' shots level le =>
      halfWidth_le_of_variance quantiles (variance_anti le shots) level
  · exact fun e shots shots' level le =>
      halfWidth_le_of_variance quantiles (variance_anti_shots e le) level
  · exact fun e shots level beyond => halfWidth_eq_zero quantiles beyond shots level
  · exact fun e shots level level' le => halfWidth_mono_level quantiles e shots le
  · exact fun plan o ran => isJointWidth_of_run_twoParty quantiles ran
  · exact fun plan o ran => isJointWidth_of_run_hypergraph quantiles ran
  · exact fun settings report ran => hasJointWidths_of_run_sandbox quantiles ran

/-- The widths of three fifths after sixteen shots and of an undefined expectation without any.
Minus four fifths has no wider interval than three fifths, the negative infinity has none, and the
outcome of a Bell pair has a joint width although its noise is undefined. -/
theorem confidence_widths_standard :
    let _ : Kernels := .standard
    let plan : TwoPartyPlan Exact :=
      ⟨⟨finite 0, finite 1⟩, ⟨finite 2, finite 3⟩, finite 2, finite 3⟩
    let options : RunOptions Exact := { shots := 4096, depolarizing := nan }
    (∃ w, halfWidth (finite (3 / 5)) 16 confidenceLevel = finite w ∧ 0 ≤ w ∧
      w ^ 2 * 16 = Kernels.quantile 0.995 ^ 2 * (16 / 25)) ∧
    (∃ w, halfWidth nan 0 confidenceLevel = finite w ∧ 0 ≤ w ∧
      w ^ 2 = Kernels.quantile 0.995 ^ 2) ∧
    Scalar.le (halfWidth (finite (-4 / 5)) 16 confidenceLevel)
      (halfWidth (finite (3 / 5)) 16 confidenceLevel) = true ∧
    halfWidth (infinite true) 16 confidenceLevel = 0 ∧
    ∃ o g', (twoParty plan options).run (.ofSeed Sampler.correlatorSeed) = (.ok o, g') ∧
      IsJointWidth Kernels.quantile o.correlators o.shotsPerTerm o.confidence := by
  intro standard plan options
  obtain ⟨widths, ⟨-, anti, -, certain, -⟩, outcomes⟩ :=
    confidence_widths Kernels.standard_hasQuantiles
  obtain ⟨c, n, yields⟩ := exists_yields_twoParty plan options
  have run := yields.run
  have larger : Scalar.le (Scalar.abs (finite (3 / 5))) (Scalar.abs (finite (-4 / 5))) = true := by
    rw [abs_finite, abs_finite, finite_le, decide_eq_true_eq]
    norm_num [abs_of_pos, abs_of_neg]
  refine ⟨?_, ?_, anti _ _ _ _ larger, certain _ _ _ rfl, _, _, run _, ?_⟩
  · have sixteen : Nat.max 1 (16 : UInt64).toNat = 16 := rfl
    obtain ⟨w, width, nonneg, law⟩ := (widths (finite (3 / 5)) 16 confidenceLevel).2.2
    refine ⟨w, width, nonneg, ?_⟩
    rw [quantileArgument_confidenceLevel, sixteen] at law
    norm_num [clamped] at law ⊢
    exact law
  · obtain ⟨w, width, nonneg, law⟩ := (widths nan 0 confidenceLevel).2.2
    refine ⟨w, width, nonneg, ?_⟩
    rw [quantileArgument_confidenceLevel] at law
    norm_num [clamped] at law ⊢
    exact law
  · exact (outcomes options _).1 plan _ (congrArg Prod.fst (run _))

end Nonlocal
