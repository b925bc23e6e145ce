import Nonlocal.Proofs.Privacy.Depolarized

/-!
How far the privacy metrics reach.

The entropy, the divergence and the distance are sums of convex functions or of concave ones, up to
increasing or decreasing functions of the sum. So they are least where all probabilities are equal
and greatest where one outcome is certain, or the other way around, and a report on a real spectrum
lies between these two cases (`isWithin_analyzeSpectrum`). The spectrum itself matters only up to a
factor and the signs of its numbers (`shares_congr`).
-/

namespace Nonlocal.Privacy

open Exact

/-! ## Shares -/

/-- The shares depend on a spectrum only up to a factor and the signs of its numbers. -/
theorem shares_congr {xs ys : List ℝ} {c : ℝ} (positive : 0 < c)
    (scaled : ys.map abs = xs.map fun x => c * |x|) : shares ys = shares xs := by
  have length := congrArg List.length scaled
  rw [List.length_map, List.length_map] at length
  have total : (ys.map abs).sum = c * (xs.map abs).sum := by
    rw [scaled, List.sum_map_mul_left]
  unfold shares
  simp only [total, mul_pos_iff_of_pos_left positive]
  split
  · have parts : ys.map (fun y => |y| / (c * (xs.map abs).sum)) =
        (ys.map abs).map fun z => z / (c * (xs.map abs).sum) := by
      rw [List.map_map]
      rfl
    rw [parts, scaled, List.map_map]
    exact List.map_congr_left fun x _ => mul_div_mul_left _ _ positive.ne'
  · rw [List.map_const', List.map_const', length]

theorem shares_of_vanishing {xs : List ℝ} (vanishing : ∀ x ∈ xs, x = 0) :
    shares xs = List.replicate xs.length (1 / (xs.length : ℝ)) := by
  have total : (xs.map abs).sum = 0 := by
    refine List.sum_eq_zero (List.forall_mem_map.mpr fun x inside => ?_)
    rw [vanishing x inside, abs_zero]
  unfold shares
  simp only [total, lt_irrefl, if_false, List.map_const']

/-! ## Entropy -/

section Metrics

variable {ps : List ℝ} (h : IsDistribution ps)

include h

theorem IsDistribution.entropyBits_nonneg : 0 ≤ entropyBits ps := by
  have most := h.sum_le_vertex Real.convexOn_mul_log
  rw [zero_mul, mul_zero, Real.log_one, mul_zero, add_zero] at most
  exact div_nonneg (neg_nonneg.mpr most) (Real.log_nonneg one_le_two)

theorem IsDistribution.entropyBits_of_vertex (vertex : ∀ p ∈ ps, p = 0 ∨ p = 1) :
    entropyBits ps = 0 := by
  rw [entropyBits, h.sum_of_vertex vertex, zero_mul, mul_zero, Real.log_one, mul_zero, add_zero,
    neg_zero, zero_div]

theorem IsDistribution.entropyBits_of_uniform (uniform : ∀ p ∈ ps, p = 1 / ps.length) :
    entropyBits ps = Real.logb 2 ps.length := by
  have size : (ps.length : ℝ) ≠ 0 := Nat.cast_ne_zero.mpr h.length_pos.ne'
  rw [entropyBits, sum_of_uniform uniform, one_div, Real.log_inv, mul_inv_cancel_left₀ size,
    neg_neg, Real.logb]

/-! ## Divergence -/

theorem IsDistribution.renyi_of_uniform (uniform : ∀ p ∈ ps, p = 1 / ps.length) (α : ℝ) :
    renyi α ps = 0 := by
  have size : (0 : ℝ) < ps.length := Nat.cast_pos.mpr h.length_pos
  rw [renyi, sum_of_uniform uniform, Real.log_mul size.ne' (by positivity),
    Real.log_rpow (by positivity), one_div, Real.log_inv]
  ring

omit h in
theorem renyi_eq {α : ℝ} (told : α ≠ 1) (qs : List ℝ) :
    renyi α qs = Real.log (qs.map (· ^ α)).sum / (α - 1) + Real.log qs.length := by
  rw [renyi, add_div, mul_div_cancel_left₀ _ (sub_ne_zero.mpr told)]

section Order

variable {α : ℝ} (told : α ≠ 1) (order : 0 < α)

include told order

theorem IsDistribution.renyi_of_vertex (vertex : ∀ p ∈ ps, p = 0 ∨ p = 1) :
    renyi α ps = Real.log ps.length := by
  rw [renyi_eq told, h.sum_of_vertex vertex, Real.zero_rpow order.ne', Real.one_rpow, mul_zero,
    zero_add, Real.log_one, zero_div, zero_add]

/-- Powers of an order above one are convex and the others concave, and on these the denominator is
negative. -/
theorem IsDistribution.renyi_le : renyi α ps ≤ Real.log ps.length := by
  have positive := h.sum_rpow_pos α
  rw [renyi_eq told]
  suffices log_part : Real.log (ps.map (· ^ α)).sum / (α - 1) ≤ 0 by linarith
  rcases lt_or_gt_of_ne told with below | above
  · have least := h.vertex_le_sum (Real.concaveOn_rpow order.le below.le)
    rw [Real.zero_rpow order.ne', Real.one_rpow, mul_zero, zero_add] at least
    exact div_nonpos_of_nonneg_of_nonpos (Real.log_nonneg least) (sub_neg.mpr below).le
  · have most := h.sum_le_vertex (convexOn_rpow above.le)
    rw [Real.zero_rpow order.ne', Real.one_rpow, mul_zero, zero_add] at most
    exact div_nonpos_of_nonpos_of_nonneg (Real.log_nonpos positive.le most) (sub_pos.mpr above).le

theorem IsDistribution.renyi_nonneg : 0 ≤ renyi α ps := by
  have positive := h.sum_rpow_pos α
  have size : (0 : ℝ) < ps.length := Nat.cast_pos.mpr h.length_pos
  have center : Real.log (ps.length * (1 / ps.length : ℝ) ^ α) =
      -((α - 1) * Real.log ps.length) := by
    rw [Real.log_mul size.ne' (by positivity), Real.log_rpow (by positivity), one_div, Real.log_inv]
    ring
  rw [renyi]
  rcases lt_or_gt_of_ne told with below | above
  · have most := h.sum_le_length_mul (Real.concaveOn_rpow order.le below.le)
    have logs := Real.log_le_log positive most
    rw [center] at logs
    exact div_nonneg_of_nonpos (by linarith) (sub_neg.mpr below).le
  · have least := h.length_mul_le_sum (convexOn_rpow above.le)
    have logs := Real.log_le_log (by positivity) least
    rw [center] at logs
    exact div_nonneg (by linarith) (sub_pos.mpr above).le

end Order

/-! ## Distance -/

omit h in
/-- The distance of a vertex from the uniform distribution on `k` outcomes. -/
noncomputable def vertexDistance (k : ℕ) : ℝ :=
  (1 - 1 / k) ^ 4 + (k - 1) / k ^ 4

omit h in
theorem vertexDistance_eq (k : ℕ) :
    (k - 1) * (0 - 1 / (k : ℝ)) ^ 4 + (1 - 1 / (k : ℝ)) ^ 4 = vertexDistance k := by
  rw [vertexDistance]
  ring

theorem IsDistribution.fourthPowers_le : fourthPowers ps ≤ vertexDistance ps.length := by
  have convex : ConvexOn ℝ (Set.Ici 0) fun p : ℝ => (p - 1 / (ps.length : ℝ)) ^ 4 := by
    have power : ConvexOn ℝ Set.univ fun p : ℝ => p ^ 4 := Even.convexOn_pow (by decide)
    have shifted := power.translate_left (-(1 / (ps.length : ℝ)))
    exact shifted.subset (Set.subset_univ _) (convex_Ici 0)
  rw [← vertexDistance_eq]
  exact h.sum_le_vertex convex

theorem IsDistribution.fourthPowers_of_vertex (vertex : ∀ p ∈ ps, p = 0 ∨ p = 1) :
    fourthPowers ps = vertexDistance ps.length := by
  rw [← vertexDistance_eq]
  exact h.sum_of_vertex vertex fun p => (p - 1 / (ps.length : ℝ)) ^ 4

omit h in
theorem fourthPowers_of_uniform (uniform : ∀ p ∈ ps, p = 1 / ps.length) : fourthPowers ps = 0 := by
  rw [fourthPowers, sum_of_uniform uniform fun p => (p - 1 / (ps.length : ℝ)) ^ 4, sub_self]
  ring

end Metrics

/-! ## Reports -/

/-- The report on `k` eigenvalues lies between the extremes. -/
structure IsWithin (bounds : PrivacyBounds Exact) (k : ℕ) (m : PrivacyMetrics Exact) : Prop where
  leak : ∃ x : ℝ, m.entropyLeakBits = finite x ∧ ((k : ℝ) ^ k)⁻¹ ≤ x ∧ x ≤ 1
  divergence : ∃ x : ℝ, m.reyniDivergence = finite x ∧ 0 ≤ x ∧
    x ≤ bounds.reyniScale.toReal * Real.log k
  distance : ∃ x : ℝ, m.hockeyStickDelta = finite x ∧ 0 ≤ x ∧
    x ≤ bounds.hockeyStickScale.toReal * vertexDistance k

/-- The report on `k` eigenvalues is at the upper extremes. -/
structure IsHighest (bounds : PrivacyBounds Exact) (k : ℕ) (m : PrivacyMetrics Exact) : Prop where
  leak : m.entropyLeakBits = finite 1
  divergence : m.reyniDivergence = finite (bounds.reyniScale.toReal * Real.log k)
  distance : m.hockeyStickDelta = finite (bounds.hockeyStickScale.toReal * vertexDistance k)

/-- The report on `k` eigenvalues is at the lower extremes. -/
structure IsLowest (k : ℕ) (m : PrivacyMetrics Exact) : Prop where
  leak : m.entropyLeakBits = finite ((k : ℝ) ^ k)⁻¹
  divergence : m.reyniDivergence = finite 0
  distance : m.hockeyStickDelta = finite 0

theorem two_rpow_neg_logb {k : ℕ} (pos : 0 < k) :
    (2 : ℝ) ^ (-Real.logb 2 k * k) = ((k : ℝ) ^ k)⁻¹ := by
  rw [neg_mul, Real.rpow_neg zero_le_two, Real.rpow_mul zero_le_two,
    Real.rpow_logb two_pos one_lt_two.ne' (Nat.cast_pos.mpr pos), Real.rpow_natCast]

section Reports

variable {bounds : PrivacyBounds Exact} (comparable : bounds.IsComparable) {xs : List ℝ}
  (nonempty : xs ≠ []) (digest : Exact)

include comparable

theorem scales_nonneg : 0 ≤ bounds.reyniScale.toReal ∧ 0 ≤ bounds.hockeyStickScale.toReal := by
  rcases comparable.divergenceScale with ⟨s, scale, hs⟩
  rcases comparable.distanceScale with ⟨s', scale', hs'⟩
  rw [scale, scale']
  exact ⟨hs, hs'⟩

/-- A report on a real spectrum shows its entropy, its divergence and its distance. -/
theorem exists_report_eq : ∃ α : ℝ, 0 < α ∧ α ≠ 1 ∧ ∀ xs : List ℝ, xs ≠ [] → ∀ digest,
    let m := analyzeSpectrum bounds (xs.map finite) digest
    m.entropyLeakBits = finite (2 ^ (-entropyBits (shares xs) * xs.length)) ∧
    m.reyniDivergence = finite (bounds.reyniScale.toReal * renyi α (shares xs)) ∧
    m.hockeyStickDelta = finite (bounds.hockeyStickScale.toReal * fourthPowers (shares xs)) := by
  rcases comparable.order with ⟨α, order, pos, apart⟩
  rcases comparable.divergenceScale with ⟨s, scale, -⟩
  rcases comparable.distanceScale with ⟨s', scale', -⟩
  have told : α ≠ 1 := by
    rintro rfl
    norm_num at apart
  refine ⟨α, pos, told, fun xs nonempty digest => ⟨entropyLeakBits_eq _ _ nonempty, ?_, ?_⟩⟩
  · rw [reyniDivergence_eq _ _ nonempty order pos apart scale, scale, mul_comm]
    rfl
  · rw [hockeyStickDelta_eq _ _ scale', scale', mul_comm]
    rfl

include nonempty

/-- The report on a real spectrum lies between the extremes. -/
theorem isWithin_analyzeSpectrum :
    IsWithin bounds xs.length (analyzeSpectrum bounds (xs.map finite) digest) := by
  rcases exists_report_eq comparable with ⟨α, pos, told, report⟩
  rcases report xs nonempty digest with ⟨leak, divergence, distance⟩
  rcases scales_nonneg comparable with ⟨hs, hs'⟩
  have vector := isDistribution_shares nonempty
  have size := length_shares xs
  refine ⟨⟨_, leak, ?_, ?_⟩, ⟨_, divergence, ?_, ?_⟩, ⟨_, distance, ?_, ?_⟩⟩
  · rw [← two_rpow_neg_logb (List.length_pos_iff.mpr nonempty)]
    apply Real.rpow_le_rpow_of_exponent_le one_le_two
    have most := vector.entropyBits_le
    rw [size] at most
    gcongr
  · apply Real.rpow_le_one_of_one_le_of_nonpos one_le_two
    exact mul_nonpos_of_nonpos_of_nonneg (neg_nonpos.mpr vector.entropyBits_nonneg)
      (Nat.cast_nonneg _)
  · exact mul_nonneg hs (vector.renyi_nonneg told pos)
  · exact size ▸ mul_le_mul_of_nonneg_left (vector.renyi_le told pos) hs
  · exact mul_nonneg hs' (fourthPowers_nonneg _)
  · exact size ▸ mul_le_mul_of_nonneg_left vector.fourthPowers_le hs'

/-- A spectrum with all its weight on one eigenvalue. -/
theorem isHighest_analyzeSpectrum (vertex : ∀ p ∈ shares xs, p = 0 ∨ p = 1) :
    IsHighest bounds xs.length (analyzeSpectrum bounds (xs.map finite) digest) := by
  rcases exists_report_eq comparable with ⟨α, pos, told, report⟩
  rcases report xs nonempty digest with ⟨leak, divergence, distance⟩
  have vector := isDistribution_shares nonempty
  rw [vector.entropyBits_of_vertex vertex, neg_zero, zero_mul, Real.rpow_zero] at leak
  rw [vector.renyi_of_vertex told pos vertex, length_shares] at divergence
  rw [vector.fourthPowers_of_vertex vertex, length_shares] at distance
  exact ⟨leak, divergence, distance⟩

/-- A spectrum of equal eigenvalues. -/
theorem isLowest_analyzeSpectrum (uniform : ∀ p ∈ shares xs, p = 1 / xs.length) :
    IsLowest xs.length (analyzeSpectrum bounds (xs.map finite) digest) := by
  rcases exists_report_eq comparable with ⟨α, -, -, report⟩
  rcases report xs nonempty digest with ⟨leak, divergence, distance⟩
  have vector := isDistribution_shares nonempty
  rw [← length_shares xs] at uniform
  rw [vector.entropyBits_of_uniform uniform, length_shares,
    two_rpow_neg_logb (List.length_pos_iff.mpr nonempty)] at leak
  rw [vector.renyi_of_uniform uniform, mul_zero] at divergence
  rw [fourthPowers_of_uniform uniform, mul_zero] at distance
  exact ⟨leak, divergence, distance⟩

end Reports

end Nonlocal.Privacy
