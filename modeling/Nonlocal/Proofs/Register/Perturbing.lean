import Nonlocal.Proofs.Register.Representation

/-!
Disturbing the diagonal twice.

Each disturbance is divided by the trace that it leaves, the coherences included, so a second one
meets a state in which the first one is already scaled. In terms of the first state it counts as
often as that trace says (`inv_smul_add_diagonalNoise`), and the two together are one disturbance by
a combined list. Only the entries of a list that have a bit string to land on take part
(`diagonalNoise_take`). Main statement: `perturbations_compose`.
-/

namespace Nonlocal

open Matrix Exact

variable {q : ℕ}

/-- The sums of the entries of two lists, with zeros after the end of the shorter one. -/
def paddedSum (xs ys : List ℝ) : List ℝ :=
  List.zipWithAll (fun x y => x.getD 0 + y.getD 0) xs ys

theorem getD_paddedSum (xs ys : List ℝ) (i : ℕ) :
    (paddedSum xs ys).getD i 0 = xs.getD i 0 + ys.getD i 0 := by
  simp only [paddedSum, List.getD_eq_getElem?_getD, List.getElem?_zipWithAll]
  cases xs[i]? <;> cases ys[i]? <;> simp

/-! ## Noise on the diagonal -/

/-- Noise without a bit string to land on is ignored. -/
theorem diagonalNoise_take (noise : List ℝ) :
    diagonalNoise q (noise.take (basisSize q)) = diagonalNoise q noise := by
  rw [diagonalNoise, diagonalNoise]
  congr 1
  funext i
  rw [List.getD_eq_getElem?_getD, List.getD_eq_getElem?_getD, List.getElem?_take_of_lt i.isLt]

theorem diagonalNoise_paddedSum (u v : List ℝ) (c : ℝ) :
    diagonalNoise q (paddedSum u (v.map (c * ·))) =
      diagonalNoise q u + (c : ℂ) • diagonalNoise q v := by
  have scaled (i : ℕ) : (v.map (c * ·)).getD i 0 = c * v.getD i 0 := by
    rw [List.getD_eq_getElem?_getD, List.getD_eq_getElem?_getD, List.getElem?_map]
    cases v[i]? <;> simp
  rw [diagonalNoise, diagonalNoise, diagonalNoise, ← diagonal_smul, diagonal_add]
  congr 1
  funext i
  rw [getD_paddedSum, scaled]
  simp

/-- Noise on a state that was divided by its trace, in terms of the state before the division. -/
theorem inv_smul_add_diagonalNoise {t s : ℝ} (large : t ≠ 0) (N : Operator q) (v : List ℝ) :
    ((s : ℂ))⁻¹ • (((t : ℂ))⁻¹ • N + diagonalNoise q v) =
      ((t * s : ℝ) : ℂ)⁻¹ • (N + (t : ℂ) • diagonalNoise q v) := by
  have nonzero : (t : ℂ) ≠ 0 := Complex.ofReal_ne_zero.mpr large
  have weight : ((t * s : ℝ) : ℂ)⁻¹ * t = (s : ℂ)⁻¹ := by
    rw [Complex.ofReal_mul, mul_inv, mul_right_comm, inv_mul_cancel₀ nonzero, one_mul]
  have rest : ((t * s : ℝ) : ℂ)⁻¹ = (s : ℂ)⁻¹ * (t : ℂ)⁻¹ := by
    rw [Complex.ofReal_mul, mul_inv, mul_comm]
  rw [smul_add, smul_add, smul_smul, smul_smul, weight, rest]

namespace DensityMatrix

variable {M : Operator q}

theorem perturb_take (M : Operator q) (noise : List ℝ) :
    (ofMatrix M).perturb ((noise.take (basisSize q)).map finite) =
      (ofMatrix M).perturb (noise.map finite) := by
  rw [perturb_ofMatrix, perturb_ofMatrix, diagonalNoise_take]

/-- A disturbance of a state of trace one, by the trace that it leaves. -/
theorem perturb_of_trace (hM : M.trace = 1) (noise : List ℝ) :
    (ofMatrix M).perturb (noise.map finite) =
      if |1 + (noise.take (basisSize q)).sum| < 1e-12 then ofMatrix M
      else ofMatrix (((1 + (noise.take (basisSize q)).sum : ℝ) : ℂ)⁻¹ •
        (M + diagonalNoise q noise)) := by
  rw [perturb_ofMatrix, trace_add_diagonalNoise hM, Complex.norm_real, Real.norm_eq_abs]

/-- Two disturbances in a row, neither of which cancels the trace. -/
theorem perturb_perturb (hM : IsNormalized M) {u v : List ℝ} {t s : ℝ}
    (first : t = 1 + (u.take (basisSize q)).sum) (second : s = 1 + (v.take (basisSize q)).sum)
    (large : 1e-12 ≤ |t|) (large' : 1e-12 ≤ |s|) (both : 1e-12 ≤ |t * s|) :
    ((ofMatrix M).perturb (u.map finite)).perturb (v.map finite) =
      (ofMatrix M).perturb ((paddedSum u (v.map (t * ·))).map finite) := by
  have left : (M + diagonalNoise q u).trace = t := by
    rw [trace_add_diagonalNoise hM.trace_eq, first]
  have nonzero : t ≠ 0 := fun zero => by norm_num [zero] at large
  have normalized : IsNormalized ((t : ℂ)⁻¹ • (M + diagonalNoise q u)) := by
    rw [← left]
    apply isNormalized_inv_trace_smul (hM.hermitian.add (isHermitian_diagonalNoise q u))
    rw [left]
    exact Complex.ofReal_ne_zero.mpr nonzero
  -- The trace of the combined disturbance is the product of the two traces.
  have combined : M + diagonalNoise q (paddedSum u (v.map (t * ·))) =
      (M + diagonalNoise q u) + (t : ℂ) • diagonalNoise q v := by
    rw [diagonalNoise_paddedSum, add_assoc]
  have trace : (M + diagonalNoise q (paddedSum u (v.map (t * ·)))).trace = ((t * s : ℝ) : ℂ) := by
    rw [combined, trace_add, left, trace_smul, trace_diagonalNoise, second]
    push_cast
    ring
  rw [perturb_of_trace hM.trace_eq, ← first, if_neg large.not_gt,
    perturb_of_trace normalized.trace_eq, ← second, if_neg large'.not_gt,
    perturb_ofMatrix, trace, Complex.norm_real, Real.norm_eq_abs, if_neg both.not_gt, combined,
    inv_smul_add_diagonalNoise nonzero]

end DensityMatrix

/-- Disturbing the diagonal twice, in any state that is Hermitian and has trace one. What a list
holds beyond the last bit string is ignored, and a list that cancels the trace leaves the state as
it is. Otherwise, as long as neither trace nor their product is too small to be divided out, the two
lists act as one, in which the second one counts as often as the trace after the first one says. -/
theorem perturbations_compose {ρ : DensityMatrix Exact} (hρ : IsNormalizedOn q ρ)
    (u v : List ℝ) :
    let t := 1 + (u.take ρ.dimension).sum
    let s := 1 + (v.take ρ.dimension).sum
    ρ.perturb ((u.take ρ.dimension).map finite) = ρ.perturb (u.map finite) ∧
    (|t| < 1e-12 → ρ.perturb (u.map finite) = ρ) ∧
    (1e-12 ≤ |t| → 1e-12 ≤ |s| → 1e-12 ≤ |t * s| →
      (ρ.perturb (u.map finite)).perturb (v.map finite) =
        ρ.perturb ((paddedSum u (v.map (t * ·))).map finite)) := by
  rcases hρ with ⟨M, rfl, hM⟩
  intro t s
  have unchanged (cancelled : |t| < 1e-12) : (DensityMatrix.ofMatrix M).perturb (u.map finite) =
      .ofMatrix M := (DensityMatrix.perturb_of_trace hM.trace_eq u).trans (if_pos cancelled)
  exact ⟨DensityMatrix.perturb_take M u, unchanged, DensityMatrix.perturb_perturb hM rfl rfl⟩

/-- A disturbance that turns the sign of the trace around, and after it one with an entry too many.
-/
theorem perturbations_compose_turned :
    let ρ : DensityMatrix Exact := .ghz 2
    IsNormalizedOn 2 ρ ∧
      (ρ.perturb ([-3, 1].map finite)).perturb ([1 / 2, 0, 0, 0, 7].map finite) =
        ρ.perturb ([-7 / 2, 1, 0, 0, -7].map finite) := by
  intro ρ
  have normalized : IsNormalizedOn 2 ρ := isNormalizedOn_ghz 2
  have rows : ρ.dimension = 4 := rfl
  have combined : paddedSum [-3, 1] ([1 / 2, 0, 0, 0, 7].map ((-1 : ℝ) * ·)) =
      [-7 / 2, 1, 0, 0, -7] := by
    norm_num [paddedSum]
  have first : 1 + (([-3, 1] : List ℝ).take ρ.dimension).sum = -1 := by
    norm_num [rows]
  have second : 1 + (([1 / 2, 0, 0, 0, 7] : List ℝ).take ρ.dimension).sum = 3 / 2 := by
    norm_num [rows]
  rcases perturbations_compose normalized [-3, 1] [1 / 2, 0, 0, 0, 7] with ⟨-, -, both⟩
  rw [first, second, combined] at both
  exact ⟨normalized, both (by norm_num) (by norm_num) (by norm_num)⟩

end Nonlocal
