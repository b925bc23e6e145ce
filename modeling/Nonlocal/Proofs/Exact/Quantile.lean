import Nonlocal.Proofs.Exact.Kernels

/-!
Quantiles of the standard normal distribution.

What is assumed of the quantile kernel is that inside of the unit interval it is a real function
which does not decrease and vanishes at one half (`Kernels.HasQuantiles`). The quantile function of
the standard normal distribution is such a function (`Kernels.standard_hasQuantiles`): the mass
below a number grows with it from zero to one, and half of the mass is below zero.
-/

namespace Nonlocal.Kernels

open Filter MeasureTheory ProbabilityTheory Set

/-- Inside of the unit interval the quantile kernel is the real function `z`, which does not
decrease there and vanishes at one half. -/
structure HasQuantiles [Kernels] (z : ℝ → ℝ) : Prop where
  finite : ∀ p, 0 < p → p < 1 → Kernels.normalQuantile (.finite p) = .finite (z p)
  mono : ∀ p r, 0 < p → p ≤ r → r < 1 → z p ≤ z r
  half : z (1 / 2) = 0

/-! ## The standard normal distribution -/

/-- The mass of the standard normal distribution below a number. -/
noncomputable abbrev massBelow (x : ℝ) : ℝ :=
  cdf (gaussianReal 0 1) x

theorem massBelow_zero : massBelow 0 = 1 / 2 := by
  have continuous : NullSingletonClass (gaussianReal 0 1) :=
    nullSingletonClass_gaussianReal one_ne_zero
  have symmetric : (gaussianReal 0 1).map (fun x => -x) = gaussianReal 0 1 := by
    rw [gaussianReal_map_neg, neg_zero]
  have mirrored : (gaussianReal 0 1).real (Ici 0) = (gaussianReal 0 1).real (Iic 0) := by
    conv_lhs => rw [← symmetric]
    rw [map_measureReal_apply measurable_neg measurableSet_Ici, neg_preimage, neg_Ici, neg_zero]
  have boundary : (gaussianReal 0 1).real (Ioi 0) = (gaussianReal 0 1).real (Ici 0) :=
    measureReal_congr Ioi_ae_eq_Ici
  have total : (gaussianReal 0 1).real (Iic 0) + (gaussianReal 0 1).real (Iic 0)ᶜ = 1 :=
    probReal_add_probReal_compl measurableSet_Iic
  rw [compl_Iic, boundary, mirrored] at total
  rw [massBelow, cdf_eq_real]
  linarith

/-- Every interval below zero has a part of the mass. -/
theorem massBelow_lt_half {x : ℝ} (negative : x < 0) : massBelow x < 1 / 2 := by
  have between : (gaussianReal 0 1).real (Ioc x 0) ≠ 0 := by
    intro none
    have vanishes := (measureReal_eq_zero_iff (by finiteness)).mp none
    have length := gaussianReal_absolutelyContinuous' 0 one_ne_zero vanishes
    rw [Real.volume_Ioc, ENNReal.ofReal_eq_zero] at length
    linarith
  have parts : (gaussianReal 0 1).real (Iic 0) =
      (gaussianReal 0 1).real (Iic x) + (gaussianReal 0 1).real (Ioc x 0) := by
    rw [← measureReal_union (Iic_disjoint_Ioc le_rfl) measurableSet_Ioc,
      Iic_union_Ioc_eq_Iic negative.le]
  have zero := massBelow_zero
  rw [massBelow, cdf_eq_real, parts] at zero
  rw [massBelow, cdf_eq_real]
  have part := measureReal_nonneg.lt_of_ne' between
  linarith

/-- Some number has less mass below it than a positive share. -/
theorem bddBelow_share {p : ℝ} (positive : 0 < p) : BddBelow {x | p ≤ massBelow x} := by
  obtain ⟨x, small⟩ :=
    ((tendsto_cdf_atBot (gaussianReal 0 1)).eventually_lt_const positive).exists
  refine ⟨x, fun y large => ?_⟩
  exact (monotone_cdf _).reflect_lt (small.trans_le large) |>.le

theorem nonempty_share {p : ℝ} (share : p < 1) : {x | p ≤ massBelow x}.Nonempty := by
  obtain ⟨x, large⟩ :=
    ((tendsto_cdf_atTop (gaussianReal 0 1)).eventually_const_lt share).exists
  exact ⟨x, large.le⟩

theorem quantile_mono {p r : ℝ} (positive : 0 < p) (le : p ≤ r) (share : r < 1) :
    quantile p ≤ quantile r :=
  csInf_le_csInf (bddBelow_share positive) (nonempty_share share) fun _ => le.trans

theorem quantile_half : quantile (1 / 2) = 0 := by
  have least : IsLeast {x | 1 / 2 ≤ massBelow x} 0 :=
    ⟨massBelow_zero.ge, fun x large => not_lt.mp fun negative =>
      (massBelow_lt_half negative).not_ge large⟩
  exact least.csInf_eq

theorem quantileAt_finite {p : ℝ} (positive : 0 < p) (share : p < 1) :
    quantileAt (.finite p) = .finite (quantile p) := by
  have inside : ¬(p < 0 ∨ 1 < p) := not_or.mpr ⟨positive.not_gt, share.not_gt⟩
  rw [quantileAt, if_neg inside, if_neg positive.ne', if_neg share.ne]

theorem standard_hasQuantiles : @HasQuantiles .standard quantile :=
  @HasQuantiles.mk .standard quantile (fun _ => quantileAt_finite) (fun _ _ => quantile_mono)
    quantile_half

end Nonlocal.Kernels
