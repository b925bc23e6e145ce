import Mathlib.Analysis.Convex.SpecificFunctions.Pow
import Nonlocal.Privacy
import Nonlocal.Proofs.Exact.Number
import Nonlocal.Proofs.Privacy.Distribution

/-!
The privacy metrics over the real numbers.

A real spectrum gives a probability vector (`probabilities_finite`), and on a probability vector the
entropy, the divergence and the distance of the report are the real numbers of the textbook. Mixing
with the uniform distribution raises the first and lowers the other two.
-/

namespace Nonlocal.Privacy

open Exact

/-! ## Spectra -/

/-- The absolute values of a spectrum as shares of their sum; equal shares of a spectrum that
vanishes. -/
noncomputable def shares (xs : List ℝ) : List ℝ :=
  let total := (xs.map abs).sum
  if 0 < total then xs.map fun x => |x| / total else xs.map fun _ => 1 / xs.length

theorem length_shares (xs : List ℝ) : (shares xs).length = xs.length := by
  unfold shares
  dsimp only
  split
  all_goals exact List.length_map _

theorem probabilities_finite (xs : List ℝ) :
    probabilities (xs.map finite) = (shares xs).map finite := by
  have magnitudes : (xs.map finite).map Scalar.abs = (xs.map abs).map finite :=
    map_map_finite fun x _ => abs_finite x
  unfold probabilities shares
  simp only [magnitudes, sum_finite, isFinite_finite, zero_eq, finite_lt, Bool.true_and,
    decide_eq_true_eq]
  split
  · next positive =>
    simp only [List.map_map, Function.comp_def, finite_div _ positive.ne']
  · refine map_map_finite fun x inside => ?_
    have size : (xs.length : ℝ) ≠ 0 :=
      Nat.cast_ne_zero.mpr (List.length_pos_of_mem inside).ne'
    rw [one_eq, ofNat_eq, List.length_map, finite_div 1 size]

theorem isDistribution_shares {xs : List ℝ} (nonempty : xs ≠ []) : IsDistribution (shares xs) := by
  unfold shares
  dsimp only
  split
  · next positive =>
    constructor
    · intro p member
      obtain ⟨x, -, rfl⟩ := List.mem_map.mp member
      exact div_nonneg (abs_nonneg x) positive.le
    · simp only [div_eq_mul_inv]
      rw [List.sum_map_mul_right, mul_inv_cancel₀ positive.ne']
  · have size : (xs.length : ℝ) ≠ 0 :=
      Nat.cast_ne_zero.mpr (List.length_pos_iff.mpr nonempty).ne'
    constructor
    · intro p member
      obtain ⟨x, -, rfl⟩ := List.mem_map.mp member
      exact one_div_nonneg.mpr (Nat.cast_nonneg _)
    · rw [List.map_const', List.sum_replicate, nsmul_eq_mul, mul_one_div_cancel size]

/-- The shares of a probability vector are its entries. -/
theorem IsDistribution.shares_eq {ps : List ℝ} (h : IsDistribution ps) : shares ps = ps := by
  have magnitudes : ps.map abs = ps :=
    (List.map_congr_left fun p inside => abs_of_nonneg (h.nonneg p inside)).trans ps.map_id'
  have total : (ps.map abs).sum = 1 := by
    rw [magnitudes, h.sum_eq]
  unfold shares
  simp only [total, zero_lt_one, if_true, div_one]
  exact magnitudes

/-! ## Entropy -/

/-- The Shannon entropy in bits. -/
noncomputable def entropyBits (ps : List ℝ) : ℝ :=
  -(ps.map fun p => p * Real.log p).sum / Real.log 2

/-- Entries that vanish contribute nothing. -/
theorem sum_positive {ps : List ℝ} (nonneg : ∀ p ∈ ps, 0 ≤ p) :
    ((ps.filter fun p => 0 < p).map fun p => p * Real.logb 2 p).sum =
      (ps.map fun p => p * Real.log p).sum / Real.log 2 := by
  induction ps with
  | nil => simp
  | cons p ps ih =>
    obtain ⟨first, others⟩ := List.forall_mem_cons.mp nonneg
    rw [List.map_cons, List.sum_cons, add_div, ← ih others, List.filter_cons]
    split
    · rw [List.map_cons, List.sum_cons, Real.logb, mul_div_assoc]
    · next vanishes =>
      obtain rfl : p = 0 := le_antisymm (not_lt.mp (by simpa using vanishes)) first
      rw [zero_mul, zero_div, zero_add]

theorem entropy_finite {ps : List ℝ} (nonneg : ∀ p ∈ ps, 0 ≤ p) :
    entropy (ps.map finite) = finite (entropyBits ps) := by
  have positive : (ps.map finite).filter (Scalar.lt 0) =
      (ps.filter fun p => 0 < p).map finite := by
    rw [List.filter_map, zero_eq]
    rfl
  have contributions : ((ps.filter fun p => 0 < p).map finite).map (fun p => p * Scalar.log2 p) =
      ((ps.filter fun p => 0 < p).map fun p => p * Real.logb 2 p).map finite := by
    refine map_map_finite fun p member => ?_
    have above : 0 < p := of_decide_eq_true (List.mem_filter.mp member).2
    rw [log2_finite above, finite_mul]
  rw [entropy, positive, contributions, sum_finite, neg_finite, sum_positive nonneg, entropyBits,
    neg_div]

theorem entropyBits_perm {ps qs : List ℝ} (same : ps.Perm qs) :
    entropyBits ps = entropyBits qs := by
  rw [entropyBits, entropyBits, (same.map _).sum_eq]

/-- No distribution has more entropy than the uniform one. -/
theorem IsDistribution.entropyBits_le {ps : List ℝ} (h : IsDistribution ps) :
    entropyBits ps ≤ Real.logb 2 ps.length := by
  have size : (ps.length : ℝ) ≠ 0 := Nat.cast_ne_zero.mpr h.length_pos.ne'
  have least := h.length_mul_le_sum Real.convexOn_mul_log
  rw [one_div, Real.log_inv, mul_inv_cancel_left₀ size] at least
  rw [entropyBits, Real.logb]
  gcongr
  linarith

section Mixing

variable {ps : List ℝ} {t : ℝ}

theorem IsDistribution.entropyBits_le_mix (h : IsDistribution ps) (ht : 0 ≤ t) (ht' : t ≤ 1) :
    entropyBits ps ≤ entropyBits (mix t ps) := by
  have falls := h.sum_mix_le Real.convexOn_mul_log ht ht'
  rw [entropyBits, entropyBits]
  gcongr

theorem IsDistribution.entropyBits_lt_mix (h : IsDistribution ps) (ht : 0 < t) (ht' : t < 1)
    (uneven : ∃ p ∈ ps, p ≠ 1 / ps.length) : entropyBits ps < entropyBits (mix t ps) := by
  have falls := h.sum_mix_lt Real.strictConvexOn_mul_log ht ht' uneven
  have base := Real.log_pos one_lt_two
  rw [entropyBits, entropyBits]
  gcongr

end Mixing

/-! ## Divergence -/

/-- The divergence of order `α` from the uniform distribution. -/
noncomputable def renyi (α : ℝ) (ps : List ℝ) : ℝ :=
  (Real.log (ps.map (· ^ α)).sum + (α - 1) * Real.log ps.length) / (α - 1)

theorem IsDistribution.exists_pos {ps : List ℝ} (h : IsDistribution ps) : ∃ p ∈ ps, 0 < p := by
  by_contra none
  push Not at none
  have zero : ps.sum = 0 :=
    List.sum_eq_zero fun p inside => le_antisymm (none p inside) (h.nonneg p inside)
  exact zero_ne_one (zero.symm.trans h.sum_eq)

theorem IsDistribution.sum_rpow_pos {ps : List ℝ} (h : IsDistribution ps) (α : ℝ) :
    0 < (ps.map (· ^ α)).sum := by
  obtain ⟨p, inside, positive⟩ := h.exists_pos
  have terms : ∀ x ∈ ps.map (· ^ α), 0 ≤ x :=
    List.forall_mem_map.mpr fun q member => Real.rpow_nonneg (h.nonneg q member) α
  exact (Real.rpow_pos_of_pos positive α).trans_le
    (List.single_le_sum terms _ (List.mem_map_of_mem inside))

theorem orderResolution_eq : (orderResolution : Exact) = finite (1 / 2 ^ 52) := by
  have size : ((Nat.pow 2 52 : ℕ) : ℝ) = 2 ^ 52 := Nat.cast_pow 2 52
  rw [orderResolution, one_eq, ofNat_eq, size, finite_div 1 (by positivity)]

theorem divergence_finite {ps : List ℝ} (h : IsDistribution ps) {α : ℝ} (order : 0 < α)
    (apart : 1 / 2 ^ 52 ≤ |α - 1|) :
    divergence (ps.map finite) (finite α) = finite (renyi α ps) := by
  have size : (0 : ℝ) < ps.length := Nat.cast_pos.mpr h.length_pos
  have nonempty : (ps.map finite).isEmpty = false := by
    rw [List.isEmpty_map, List.isEmpty_eq_false_iff]
    exact List.length_pos_iff.mp h.length_pos
  have told : α - 1 ≠ 0 := abs_pos.mp (lt_of_lt_of_le (by positivity) apart)
  have powers : (ps.map finite).map (Scalar.pow · (finite α)) = (ps.map (· ^ α)).map finite :=
    map_map_finite fun p inside => pow_finite (h.nonneg p inside) fun _ => order.le
  unfold divergence
  simp only [nonempty, one_eq, finite_sub, abs_finite, orderResolution_eq, finite_lt,
    decide_eq_false (not_lt.mpr apart), Bool.or_self, Bool.false_eq_true, if_false, powers,
    sum_finite, log_finite (h.sum_rpow_pos α), List.length_map, ofNat_eq, log_finite size,
    finite_mul, finite_add, finite_div _ told]
  rfl

/-- Mixing lowers the divergence. Powers of an order above one are convex and the others concave,
and on these the denominator is negative. -/
theorem IsDistribution.renyi_mix_le {ps : List ℝ} (h : IsDistribution ps) {t : ℝ} (ht : 0 ≤ t)
    (ht' : t ≤ 1) {α : ℝ} (order : 0 < α) (told : α ≠ 1) : renyi α (mix t ps) ≤ renyi α ps := by
  have before := h.sum_rpow_pos α
  have after := (h.mixed ht ht').sum_rpow_pos α
  rw [renyi, renyi, length_mix]
  rcases lt_or_gt_of_ne told with below | above
  · have powers := h.le_sum_mix (Real.concaveOn_rpow order.le below.le) ht ht'
    have logs := Real.log_le_log before powers
    exact div_le_div_of_nonpos_of_le (sub_neg.mpr below).le (add_le_add_left logs _)
  · have powers := h.sum_mix_le (convexOn_rpow above.le) ht ht'
    have logs := Real.log_le_log after powers
    exact div_le_div_of_nonneg_right (add_le_add_left logs _) (sub_pos.mpr above).le

theorem renyi_perm {ps qs : List ℝ} (same : ps.Perm qs) (α : ℝ) : renyi α ps = renyi α qs := by
  rw [renyi, renyi, (same.map _).sum_eq, same.length_eq]

/-! ## Distance -/

/-- The sum of the fourth powers of the distances from the uniform distribution. -/
noncomputable def fourthPowers (ps : List ℝ) : ℝ :=
  (ps.map fun p => (p - 1 / (ps.length : ℝ)) ^ 4).sum

theorem hockeyStick_finite (ps : List ℝ) :
    hockeyStick (ps.map finite) = finite (fourthPowers ps) := by
  rw [hockeyStick, fourthPowers, ← sum_finite]
  refine congrArg Scalar.sum (map_map_finite fun p inside => ?_)
  have size : (ps.length : ℝ) ≠ 0 := Nat.cast_ne_zero.mpr (List.length_pos_of_mem inside).ne'
  rw [List.length_map, one_eq, ofNat_eq, finite_div 1 size, finite_sub, abs_finite, powNat_finite,
    Even.pow_abs (by decide)]

/-- Mixing moves every entry toward the uniform one, in proportion. -/
theorem fourthPowers_mix (t : ℝ) (ps : List ℝ) :
    fourthPowers (mix t ps) = (1 - t) ^ 4 * fourthPowers ps := by
  rw [fourthPowers, length_mix, mix, List.map_map, fourthPowers, ← List.sum_map_mul_left]
  congr 1
  refine List.map_congr_left fun p _ => ?_
  rw [Function.comp_apply]
  ring

theorem fourthPowers_nonneg (ps : List ℝ) : 0 ≤ fourthPowers ps := by
  apply List.sum_nonneg
  rw [List.forall_mem_map]
  exact fun p _ => Even.pow_nonneg (by decide) _

theorem fourthPowers_perm {ps qs : List ℝ} (same : ps.Perm qs) :
    fourthPowers ps = fourthPowers qs := by
  rw [fourthPowers, fourthPowers, same.length_eq, (same.map _).sum_eq]

/-! ## The report -/

section Report

variable (bounds : PrivacyBounds Exact) {xs : List ℝ} (digest : Exact)

theorem entropyLeakBits_eq (nonempty : xs ≠ []) :
    (analyzeSpectrum bounds (xs.map finite) digest).entropyLeakBits =
      finite (2 ^ (-entropyBits (shares xs) * xs.length)) := by
  change Scalar.pow 2 (-entropy (probabilities (xs.map finite)) *
    Scalar.ofNat (probabilities (xs.map finite)).length) = _
  rw [probabilities_finite, entropy_finite (isDistribution_shares nonempty).nonneg, List.length_map,
    length_shares, neg_finite, ofNat_eq, finite_mul, two_eq,
    pow_finite zero_le_two fun zero => absurd zero two_ne_zero]

theorem reyniDivergence_eq (nonempty : xs ≠ []) {α s : ℝ} (order : bounds.reyniAlpha = finite α)
    (pos : 0 < α) (apart : 1 / 2 ^ 52 ≤ |α - 1|) (scale : bounds.reyniScale = finite s) :
    (analyzeSpectrum bounds (xs.map finite) digest).reyniDivergence =
      finite (renyi α (shares xs) * s) := by
  change divergence (probabilities (xs.map finite)) bounds.reyniAlpha * bounds.reyniScale = _
  rw [probabilities_finite, order, scale,
    divergence_finite (isDistribution_shares nonempty) pos apart, finite_mul]

theorem hockeyStickDelta_eq {s : ℝ} (scale : bounds.hockeyStickScale = finite s) :
    (analyzeSpectrum bounds (xs.map finite) digest).hockeyStickDelta =
      finite (fourthPowers (shares xs) * s) := by
  change hockeyStick (probabilities (xs.map finite)) * bounds.hockeyStickScale = _
  rw [probabilities_finite, scale, hockeyStick_finite, finite_mul]

end Report

end Nonlocal.Privacy
