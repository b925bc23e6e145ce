import Mathlib.Analysis.Convex.Jensen
import Mathlib.Algebra.BigOperators.Fin
import Mathlib.Algebra.Order.BigOperators.Group.List
import Mathlib.Analysis.SpecialFunctions.Log.NegMulLog

/-!
Probability vectors, and what mixing them with the uniform one does to convex sums.

A sum of the values of a convex function is least on the uniform distribution
(`IsDistribution.length_mul_le_sum`) and falls when a share of it is mixed in
(`IsDistribution.sum_mix_le`, `IsDistribution.sum_mix_lt`). It is largest where one entry has all the
weight (`IsDistribution.sum_le_vertex`).
-/

namespace Nonlocal.Privacy

/-- A probability vector. -/
structure IsDistribution (ps : List ℝ) : Prop where
  nonneg : ∀ p ∈ ps, 0 ≤ p
  sum_eq : ps.sum = 1

/-- A mixture with the uniform distribution, which has the weight `t`. -/
noncomputable def mix (t : ℝ) (ps : List ℝ) : List ℝ :=
  ps.map fun p => (1 - t) * p + t / ps.length

@[simp] theorem length_mix (t : ℝ) (ps : List ℝ) : (mix t ps).length = ps.length :=
  List.length_map _

/-- Mixing twice is mixing once. -/
theorem mix_mix (s t : ℝ) (ps : List ℝ) : mix s (mix t ps) = mix (t + s * (1 - t)) ps := by
  rw [mix, length_mix, mix, mix, List.map_map]
  refine List.map_congr_left fun p _ => ?_
  simp only [Function.comp_apply]
  ring

theorem mix_zero (ps : List ℝ) : mix 0 ps = ps := by
  simp [mix]

/-- A larger share is mixed in by mixing once more. -/
theorem mix_eq_mix_mix {s t : ℝ} (room : s < 1) (ps : List ℝ) :
    mix t ps = mix ((t - s) / (1 - s)) (mix s ps) := by
  rw [mix_mix, div_mul_cancel₀ _ (sub_pos.mpr room).ne', add_sub_cancel]

/-- Mixing does not level a distribution out. -/
theorem exists_mem_mix_ne {t : ℝ} (room : t < 1) {ps : List ℝ}
    (uneven : ∃ p ∈ ps, p ≠ 1 / ps.length) : ∃ p ∈ mix t ps, p ≠ 1 / (mix t ps).length := by
  obtain ⟨p, inside, differs⟩ := uneven
  refine ⟨(1 - t) * p + t / ps.length, List.mem_map_of_mem inside, fun level => differs ?_⟩
  rw [length_mix] at level
  apply mul_left_cancel₀ (sub_pos.mpr room).ne'
  linear_combination level

theorem map_mix (ps : List ℝ) (φ : ℝ → ℝ) (t : ℝ) :
    (mix t ps).map φ = ps.map fun p => φ ((1 - t) • p + t • (1 / (ps.length : ℝ))) := by
  rw [mix, List.map_map]
  refine List.map_congr_left fun p _ => ?_
  rw [Function.comp_apply, smul_eq_mul, smul_eq_mul, mul_one_div]

theorem sum_map_chord (ps : List ℝ) (φ : ℝ → ℝ) (t : ℝ) :
    (ps.map fun p => (1 - t) * φ p + t * φ (1 / ps.length)).sum =
      (1 - t) * (ps.map φ).sum + t * (ps.length * φ (1 / ps.length)) := by
  rw [List.sum_map_add, List.sum_map_mul_left, List.map_const', List.sum_replicate, nsmul_eq_mul]
  ring

theorem sum_neg_map (φ : ℝ → ℝ) (qs : List ℝ) : (qs.map (-φ)).sum = -(qs.map φ).sum := by
  rw [List.sum_neg, List.map_map]
  rfl

theorem uniform_nonneg (ps : List ℝ) : (1 / ps.length : ℝ) ∈ Set.Ici 0 :=
  Set.mem_Ici.mpr (one_div_nonneg.mpr (Nat.cast_nonneg _))

namespace IsDistribution

variable {ps : List ℝ}

theorem perm {qs : List ℝ} (h : IsDistribution ps) (same : ps.Perm qs) : IsDistribution qs where
  nonneg := fun q member => h.nonneg q (same.mem_iff.mpr member)
  sum_eq := same.sum_eq.symm.trans h.sum_eq

theorem length_pos (h : IsDistribution ps) : 0 < ps.length := by
  rcases ps with _ | ⟨p, ps⟩
  · exact absurd h.sum_eq zero_ne_one
  · exact Nat.succ_pos _

theorem mixed (h : IsDistribution ps) {t : ℝ} (ht : 0 ≤ t) (ht' : t ≤ 1) :
    IsDistribution (mix t ps) where
  nonneg := by
    intro x member
    obtain ⟨p, inside, rfl⟩ := List.mem_map.mp member
    have kept := mul_nonneg (sub_nonneg.mpr ht') (h.nonneg p inside)
    have added := div_nonneg ht (Nat.cast_nonneg (α := ℝ) ps.length)
    exact add_nonneg kept added
  sum_eq := by
    have size : (ps.length : ℝ) ≠ 0 := Nat.cast_ne_zero.mpr h.length_pos.ne'
    rw [mix, List.sum_map_add, List.sum_map_mul_left, List.map_id', h.sum_eq,
      List.map_const', List.sum_replicate, nsmul_eq_mul, mul_div_cancel₀ _ size]
    ring

/-- A convex sum is least on the uniform distribution. -/
theorem length_mul_le_sum (h : IsDistribution ps) {φ : ℝ → ℝ} (convex : ConvexOn ℝ (Set.Ici 0) φ) :
    ps.length * φ (1 / ps.length) ≤ (ps.map φ).sum := by
  have size : (0 : ℝ) < ps.length := Nat.cast_pos.mpr h.length_pos
  have weights : ∑ _i : Fin ps.length, (1 / ps.length : ℝ) = 1 := by
    simp [size.ne']
  have jensen := convex.map_sum_le (p := fun i : Fin ps.length => ps[i.val])
    (fun _ _ => one_div_nonneg.mpr size.le) weights
    (fun i _ => h.nonneg _ (List.getElem_mem i.isLt))
  simp only [smul_eq_mul, ← Finset.mul_sum, Fin.sum_univ_getElem, Fin.sum_univ_fun_getElem,
    h.sum_eq, mul_one] at jensen
  rwa [one_div_mul_eq_div, le_div_iff₀' size] at jensen

section Mixing

variable {φ : ℝ → ℝ} {t : ℝ}

theorem sum_chord_le (h : IsDistribution ps) (convex : ConvexOn ℝ (Set.Ici 0) φ) (ht : 0 ≤ t) :
    (ps.map fun p => (1 - t) * φ p + t * φ (1 / ps.length)).sum ≤ (ps.map φ).sum := by
  have uniform := mul_le_mul_of_nonneg_left (h.length_mul_le_sum convex) ht
  rw [sum_map_chord]
  linarith

theorem le_chord (h : IsDistribution ps) (convex : ConvexOn ℝ (Set.Ici 0) φ) (ht : 0 ≤ t)
    (ht' : t ≤ 1) {p : ℝ} (inside : p ∈ ps) :
    φ ((1 - t) • p + t • (1 / (ps.length : ℝ))) ≤ (1 - t) * φ p + t * φ (1 / ps.length) :=
  convex.2 (h.nonneg p inside) (uniform_nonneg ps) (sub_nonneg.mpr ht') ht (sub_add_cancel 1 t)

/-- Mixing with the uniform distribution does not increase a convex sum. -/
theorem sum_mix_le (h : IsDistribution ps) (convex : ConvexOn ℝ (Set.Ici 0) φ) (ht : 0 ≤ t)
    (ht' : t ≤ 1) : ((mix t ps).map φ).sum ≤ (ps.map φ).sum := by
  rw [map_mix]
  exact (List.sum_le_sum fun p inside => h.le_chord convex ht ht' inside).trans
    (h.sum_chord_le convex ht)

theorem le_sum_mix (h : IsDistribution ps) (concave : ConcaveOn ℝ (Set.Ici 0) φ) (ht : 0 ≤ t)
    (ht' : t ≤ 1) : (ps.map φ).sum ≤ ((mix t ps).map φ).sum := by
  have opposite := h.sum_mix_le concave.neg ht ht'
  rwa [sum_neg_map, sum_neg_map, neg_le_neg_iff] at opposite

/-- Mixing decreases a strictly convex sum, unless the distribution is uniform already. -/
theorem sum_mix_lt (h : IsDistribution ps) (convex : StrictConvexOn ℝ (Set.Ici 0) φ) (ht : 0 < t)
    (ht' : t < 1) (uneven : ∃ p ∈ ps, p ≠ 1 / ps.length) :
    ((mix t ps).map φ).sum < (ps.map φ).sum := by
  obtain ⟨p, inside, differs⟩ := uneven
  have gap : φ ((1 - t) • p + t • (1 / (ps.length : ℝ))) < (1 - t) * φ p + t * φ (1 / ps.length) :=
    convex.2 (h.nonneg p inside) (uniform_nonneg ps) differs (sub_pos.mpr ht') ht
      (sub_add_cancel 1 t)
  have chords := List.sum_lt_sum _ _
    (fun _ member => h.le_chord convex.convexOn ht.le ht'.le member) ⟨p, inside, gap⟩
  rw [map_mix]
  exact chords.trans_le (h.sum_chord_le convex.convexOn ht.le)

end Mixing

/-! ## Vertices and the center -/

theorem le_one (h : IsDistribution ps) {p : ℝ} (inside : p ∈ ps) : p ≤ 1 :=
  h.sum_eq ▸ List.single_le_sum h.nonneg p inside

/-- Every entry is a mixture of the two entries of a vertex. -/
theorem sum_segment (h : IsDistribution ps) (a b : ℝ) :
    (ps.map fun p => (1 - p) * a + p * b).sum = ((ps.length : ℝ) - 1) * a + b := by
  have linear : (ps.map fun p => (1 - p) * a + p * b) = ps.map fun p => a + p * (b - a) :=
    List.map_congr_left fun p _ => by ring
  rw [linear, List.sum_map_add, List.sum_map_mul_right, List.map_id', h.sum_eq, List.map_const',
    List.sum_replicate, nsmul_eq_mul]
  ring

/-- A convex sum is largest where one entry has all the weight. -/
theorem sum_le_vertex (h : IsDistribution ps) {φ : ℝ → ℝ} (convex : ConvexOn ℝ (Set.Ici 0) φ) :
    (ps.map φ).sum ≤ (ps.length - 1) * φ 0 + φ 1 := by
  rw [← h.sum_segment]
  refine List.sum_le_sum fun p inside => ?_
  have chord := convex.2 (Set.mem_Ici.mpr le_rfl) (Set.mem_Ici.mpr zero_le_one)
    (sub_nonneg.mpr (h.le_one inside)) (h.nonneg p inside) (sub_add_cancel 1 p)
  simpa only [smul_eq_mul, mul_zero, mul_one, zero_add] using chord

theorem vertex_le_sum (h : IsDistribution ps) {φ : ℝ → ℝ} (concave : ConcaveOn ℝ (Set.Ici 0) φ) :
    (ps.length - 1) * φ 0 + φ 1 ≤ (ps.map φ).sum := by
  have opposite := h.sum_le_vertex concave.neg
  rw [sum_neg_map, Pi.neg_apply, Pi.neg_apply] at opposite
  linarith

theorem sum_le_length_mul (h : IsDistribution ps) {φ : ℝ → ℝ}
    (concave : ConcaveOn ℝ (Set.Ici 0) φ) : (ps.map φ).sum ≤ ps.length * φ (1 / ps.length) := by
  have opposite := h.length_mul_le_sum concave.neg
  rw [sum_neg_map, Pi.neg_apply] at opposite
  linarith

/-- The sum at a vertex. -/
theorem sum_of_vertex (h : IsDistribution ps) (vertex : ∀ p ∈ ps, p = 0 ∨ p = 1) (φ : ℝ → ℝ) :
    (ps.map φ).sum = (ps.length - 1) * φ 0 + φ 1 := by
  rw [← h.sum_segment]
  congr 1
  refine List.map_congr_left fun p inside => ?_
  rcases vertex p inside with rfl | rfl
  · ring
  · ring

end IsDistribution

/-- The sum at the center. -/
theorem sum_of_uniform {ps : List ℝ} (uniform : ∀ p ∈ ps, p = 1 / ps.length) (φ : ℝ → ℝ) :
    (ps.map φ).sum = ps.length * φ (1 / ps.length) := by
  have level : ps.map φ = ps.map fun _ => φ (1 / ps.length) :=
    List.map_congr_left fun p inside => congrArg φ (uniform p inside)
  rw [level, List.map_const', List.sum_replicate, nsmul_eq_mul]

end Nonlocal.Privacy
