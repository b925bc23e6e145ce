import Nonlocal.Proofs.Chsh.Tsirelson
import Nonlocal.Proofs.Exact.Kernels
import Nonlocal.Proofs.Register.Ghz
import Nonlocal.Proofs.Run.Measure

/-!
The two-party run in closed form.

In a Bell pair with a share of white noise the correlator of two planar angles is the cosine of
their difference, scaled by what the noise leaves (`pairCorrelation_noisy_bell`). A run on a plan
with finite fields succeeds with these four correlators, and the noise scales Tsirelson's bound with
them (`twoParty_outcome`).
-/

namespace Nonlocal

open Exact

/-- The CHSH expression of four angles in a Bell pair. -/
noncomputable def bellChsh (a a' b b' : ℝ) : ℝ :=
  Real.cos (a - b) + Real.cos (a' - b) + Real.cos (a - b') - Real.cos (a' - b')

/-- A Bell pair with the share `p` of white noise. -/
noncomputable def noisyBell (p : ℝ) : Operator 2 :=
  mixNoise p (projector (DensityMatrix.ghzVector 2))

theorem depolarize_bell (p : Exact) :
    (DensityMatrix.bell : DensityMatrix Exact).depolarize p =
      .ofMatrix (noisyBell p.noiseLevel) :=
  depolarize_ghz (by decide) (by decide) p

/-- The correlator of two planar angles. -/
theorem pairCorrelation_noisy_bell (p a b : ℝ) :
    pairCorrelation (noisyBell p) (.planar (finite a)) (.planar (finite b)) =
      (1 - p) * Real.cos (a - b) := by
  have pos : 1 ≤ [some (Setting.planar (finite a)), some (.planar (finite b))].length :=
    Nat.le_add_left 1 1
  have closed := correlation_noisy_ghz pos p
  refine closed.trans ?_
  simp [ghzCorrelation, List.reduceOption_cons_of_some, Setting.planar, Real.cos_sub]

theorem chshValue_noisy_bell (p a a' b b' : ℝ) :
    chshValue (noisyBell p) (.planar (finite a)) (.planar (finite a')) (.planar (finite b))
      (.planar (finite b')) = (1 - p) * bellChsh a a' b b' := by
  rw [chshValue, pairCorrelation_noisy_bell, pairCorrelation_noisy_bell,
    pairCorrelation_noisy_bell, pairCorrelation_noisy_bell, bellChsh]
  ring

/-- The cosines are bounded because a Bell pair without noise obeys Tsirelson's bound. -/
theorem abs_bellChsh_le (a a' b b' : ℝ) : |bellChsh a a' b b'| ≤ 2 * √2 := by
  have state : IsState (noisyBell 0) := (isState_ghz (by decide)).mixNoise le_rfl zero_le_one
  have bound := abs_chshValue_le state (.planar (finite a)) (.planar (finite a'))
    (.planar (finite b)) (.planar (finite b'))
  rw [chshValue_noisy_bell, sub_zero, one_mul] at bound
  exact bound

/-- A plan with finite fields is given by real numbers. -/
theorem TwoPartyPlan.eq_of_isFinite {plan : TwoPartyPlan Exact} (h : plan.isFinite = true) :
    plan = {
      alice := ⟨finite plan.alice.first.toReal, finite plan.alice.second.toReal⟩
      bob := ⟨finite plan.bob.first.toReal, finite plan.bob.second.toReal⟩
      classicalLimit := finite plan.classicalLimit.toReal
      tsirelsonBound := finite plan.tsirelsonBound.toReal } := by
  simp only [isFinite, List.all_cons, List.all_nil, Bool.and_true, Bool.and_eq_true] at h
  obtain ⟨ha, ha', hb, hb', hlimit, hbound⟩ := h
  rw [← eq_finite_of_isFinite ha, ← eq_finite_of_isFinite ha', ← eq_finite_of_isFinite hb,
    ← eq_finite_of_isFinite hb', ← eq_finite_of_isFinite hlimit, ← eq_finite_of_isFinite hbound]

namespace Run

/-- A two-party run on a plan with finite fields. It succeeds for every noise level, every number of
shots and every generator; the correlators and the exact value are the cosines of the differences of
the angles and their CHSH expression, scaled by what the noise leaves. Tsirelson's bound is scaled
in the same way, so that a classical limit that is not below it is never violated. -/
theorem twoParty_outcome [Kernels] {plan : TwoPartyPlan Exact} (finitePlan : plan.isFinite = true)
    (options : RunOptions Exact) (g : Generator) :
    let a := plan.alice.first.toReal
    let a' := plan.alice.second.toReal
    let b := plan.bob.first.toReal
    let b' := plan.bob.second.toReal
    let kept := 1 - options.depolarizing.noiseLevel
    ∃ outcome g', (twoParty plan options).run g = (.ok outcome, g') ∧
      outcome.correlators =
        [finite (kept * Real.cos (a - b)), finite (kept * Real.cos (a' - b)),
          finite (kept * Real.cos (a - b')), finite (kept * Real.cos (a' - b'))] ∧
      outcome.exact = finite (kept * (Real.cos (a - b) + Real.cos (a' - b) + Real.cos (a - b') -
        Real.cos (a' - b'))) ∧
      |outcome.exact.toReal| ≤ kept * (2 * √2) ∧
      (kept * (2 * √2) ≤ plan.classicalLimit.toReal → outcome.violatesClassical = false) := by
  intro a a' b b' kept
  have fields := TwoPartyPlan.eq_of_isFinite finitePlan
  have terms : plan.terms = chshTerms (.planar (finite a)) (.planar (finite a'))
      (.planar (finite b)) (.planar (finite b')) := congrArg TwoPartyPlan.terms fields
  have limit : plan.classicalLimit = finite plan.classicalLimit.toReal :=
    congrArg TwoPartyPlan.classicalLimit fields
  have evaluated := evaluate_chshTerms_planar (noisyBell options.depolarizing.noiseLevel) a a' b b'
  simp only [chshValue_noisy_bell, pairCorrelation_noisy_bell] at evaluated
  rw [← depolarize_bell, ← terms] at evaluated
  have kept_nonneg : 0 ≤ kept := by
    have half := options.depolarizing.noiseLevel_le_half
    linarith
  have bounded : |kept * bellChsh a a' b b'| ≤ kept * (2 * √2) := by
    rw [abs_mul, abs_of_nonneg kept_nonneg]
    exact mul_le_mul_of_nonneg_left (abs_bellChsh_le a a' b b') kept_nonneg
  have run := (yields_twoParty evaluated fun e _ => Sampler.isValid e).run g
  refine ⟨_, _, run, rfl, rfl, bounded, fun above => ?_⟩
  change Scalar.lt plan.classicalLimit (finite (kept * bellChsh a a' b b')) = false
  rw [limit, finite_lt, decide_eq_false_iff_not, not_lt]
  exact (le_abs_self _).trans (bounded.trans above)

/-- The angles that reach Tsirelson's bound without noise. With noise in excess, which is run at one
half, they stay within the classical limit. -/
theorem twoParty_outcome_halved :
    let _ : Kernels := .standard
    let plan : TwoPartyPlan Exact := {
      alice := ⟨finite 0, finite (Real.pi / 2)⟩
      bob := ⟨finite (Real.pi / 4), finite (-(Real.pi / 4))⟩
      classicalLimit := finite 2
      tsirelsonBound := finite (2 * √2) }
    plan.isFinite = true ∧
      ∃ outcome g', (twoParty plan { shots := 4096, depolarizing := finite 3 }).run
          (.ofSeed Sampler.correlatorSeed) = (.ok outcome, g') ∧
        outcome.exact = finite √2 ∧ outcome.violatesClassical = false := by
  intro standard plan
  have finitePlan : plan.isFinite = true := rfl
  obtain ⟨outcome, g', run, -, exact, -, verdict⟩ := twoParty_outcome finitePlan
    { shots := 4096, depolarizing := finite 3 } (.ofSeed Sampler.correlatorSeed)
  have kept : 1 - (finite 3).noiseLevel = 1 / 2 := by
    norm_num [noiseLevel, clamped]
  refine ⟨finitePlan, outcome, g', run, ?_, verdict ?_⟩
  · rw [exact, kept]
    congr 1
    change 1 / 2 * (Real.cos (0 - Real.pi / 4) + Real.cos (Real.pi / 2 - Real.pi / 4) +
      Real.cos (0 - -(Real.pi / 4)) - Real.cos (Real.pi / 2 - -(Real.pi / 4))) = √2
    rw [zero_sub, zero_sub, neg_neg, Real.cos_neg, Real.cos_pi_div_two_sub, sub_neg_eq_add,
      add_comm (Real.pi / 2), Real.cos_add_pi_div_two, Real.sin_pi_div_four, Real.cos_pi_div_four]
    ring
  · have root : √2 ≤ 2 := Real.sqrt_le_iff.mpr ⟨by norm_num, by norm_num⟩
    change (1 - (finite 3).noiseLevel) * (2 * √2) ≤ 2
    rw [kept]
    linarith

end Run

end Nonlocal
