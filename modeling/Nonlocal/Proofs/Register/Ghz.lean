import Mathlib.Data.List.ReduceOption
import Nonlocal.Proofs.Register.Correlation

/-!
Correlators in the entangled state of `n` qubits, in closed form.

A product observable meets this state in its four corners, so that the correlator depends only on
the settings that are measured: on their number, on the product of the cosines and sines of their
polar angles, and on the sum of their azimuths (`correlation_ghz`). White noise scales the
correlator down, and adds its share where nothing is measured (`correlation_noisy_ghz`).
-/

namespace Nonlocal

open Matrix Exact Term

/-- The correlator of the measured settings in the entangled state of `n` qubits. -/
noncomputable def ghzCorrelation (n : ℕ) (settings : List (Setting Exact)) : ℝ :=
  (if Even settings.length then (settings.map fun s => Real.cos s.theta.toReal).prod else 0) +
    if settings.length = n then
      (settings.map fun s => Real.sin s.theta.toReal).prod *
        Real.cos (settings.map fun s => s.phi.toReal).sum
    else 0

/-- The order of the settings does not matter. -/
theorem ghzCorrelation_perm (n : ℕ) {settings others : List (Setting Exact)}
    (same : settings.Perm others) : ghzCorrelation n settings = ghzCorrelation n others := by
  rw [ghzCorrelation, ghzCorrelation, same.length_eq, (same.map _).prod_eq, (same.map _).prod_eq,
    (same.map _).sum_eq]

/-! ## Products over factors -/

section Products

variable (factors : List (Option (Setting Exact)))

theorem prod_reduceOption (g : Option (Setting Exact) → ℂ) (h : g none = 1) :
    (factors.map g).prod = (factors.reduceOption.map fun s => g (some s)).prod := by
  induction factors with
  | nil => rfl
  | cons f rest ih =>
    cases f with
    | none => rw [List.map_cons, List.prod_cons, h, one_mul, ih, List.reduceOption_cons_of_none]
    | some s =>
      rw [List.map_cons, List.prod_cons, ih, List.reduceOption_cons_of_some, List.map_cons,
        List.prod_cons]

theorem prod_reduceOption_of_zero (g : Option (Setting Exact) → ℂ) (h : g none = 0) :
    (factors.map g).prod =
      if factors.reduceOption.length = factors.length then
        (factors.reduceOption.map fun s => g (some s)).prod
      else 0 := by
  induction factors with
  | nil => rfl
  | cons f rest ih =>
    cases f with
    | none =>
      have shorter := List.reduceOption_length_le rest
      rw [List.map_cons, List.prod_cons, h, zero_mul, List.reduceOption_cons_of_none,
        List.length_cons, if_neg (by omega)]
    | some s => simp [List.reduceOption_cons_of_some, ih]

/-- Two bits that are equal: settings contribute their cosine, with a sign for the bit one. -/
theorem prod_factorMatrix_same (b : Fin 2) :
    (factors.map fun f => factorMatrix f b b).prod =
      (((-1) ^ b.val) ^ factors.reduceOption.length *
        (factors.reduceOption.map fun s => Real.cos s.theta.toReal).prod : ℝ) := by
  rw [prod_reduceOption factors _ (by fin_cases b <;> rfl)]
  induction factors.reduceOption with
  | nil => simp
  | cons s rest ih =>
    have entry : factorMatrix (some s) b b = ((-1) ^ b.val * Real.cos s.theta.toReal : ℝ) := by
      fin_cases b <;> simp [factorMatrix, Setting.matrix, -Complex.ofReal_cos]
    rw [List.map_cons, List.prod_cons, ih, entry, ← Complex.ofReal_mul]
    congr 1
    simp only [List.length_cons, List.map_cons, List.prod_cons, pow_succ]
    ring

/-- From the bit zero to the bit one: settings contribute their sine and their phase, and a qubit
that is not measured is orthogonal to itself. -/
theorem prod_factorMatrix_raised :
    (factors.map fun f => factorMatrix f 1 0).prod =
      if factors.reduceOption.length = factors.length then
        ((factors.reduceOption.map fun s => Real.sin s.theta.toReal).prod : ℝ) *
          Complex.exp ((factors.reduceOption.map fun s => s.phi.toReal).sum * Complex.I)
      else 0 := by
  rw [prod_reduceOption_of_zero factors _ rfl]
  congr 1
  induction factors.reduceOption with
  | nil => simp
  | cons s rest ih =>
    have entry : factorMatrix (some s) 1 0 = Real.sin s.theta.toReal * s.phase := rfl
    simp only [List.map_cons, List.prod_cons, List.sum_cons, ih, entry, Setting.phase,
      Complex.ofReal_add, add_mul, Complex.exp_add, Complex.ofReal_mul]
    ring

theorem prod_factorMatrix_lowered :
    (factors.map fun f => factorMatrix f 0 1).prod =
      star (factors.map fun f => factorMatrix f 1 0).prod := by
  induction factors with
  | nil => simp
  | cons f rest ih =>
    have entry : factorMatrix f 0 1 = star (factorMatrix f 1 0) := by
      cases f with
      | none => simp [factorMatrix]
      | some s => exact (congrFun (congrFun s.conjTranspose_matrix 0) 1).symm
    rw [List.map_cons, List.prod_cons, List.map_cons, List.prod_cons, star_mul', ih, entry]

/-- A setting has no trace, and a qubit that is not measured has the trace two. -/
theorem prod_trace_factorMatrix :
    (factors.map fun f => (factorMatrix f).trace).prod =
      if factors.reduceOption.length = 0 then (basisSize factors.length : ℂ) else 0 := by
  induction factors with
  | nil => simp
  | cons f rest ih =>
    cases f with
    | none =>
      rw [List.map_cons, List.prod_cons, List.reduceOption_cons_of_none, ih, List.length_cons,
        basisSize_succ, factorMatrix, trace_one, Fintype.card_fin]
      split
      · push_cast
        ring
      · rw [mul_zero]
    | some s => simp [factorMatrix, Setting.trace_matrix, List.reduceOption_cons_of_some]

end Products

/-! ## Correlators -/

variable {factors : List (Option (Setting Exact))}

/-- The correlator of a product observable in the entangled state. -/
theorem correlation_ghz (pos : 1 ≤ factors.length) :
    correlation (projector (DensityMatrix.ghzVector factors.length)) factors =
      ghzCorrelation factors.length factors.reduceOption := by
  -- The corners on the diagonal agree up to the sign of the bit one, which cancels them when the
  -- number of settings is odd; the other two corners are conjugate.
  have parity (c : ℝ) (k : ℕ) :
      ((-1) ^ (0 : Fin 2).val) ^ k * c + ((-1) ^ (1 : Fin 2).val) ^ k * c =
        2 * if Even k then c else 0 := by
    rcases Nat.even_or_odd k with even | odd
    · simp [even, even.neg_one_pow, two_mul]
    · simp [Nat.not_even_iff_odd.mpr odd, odd.neg_one_pow]
  rw [correlation_eq, DensityMatrix.trace_ghz_mul pos]
  simp only [productMatrix_uniformBits, prod_factorMatrix_same, prod_factorMatrix_lowered]
  have real_part (c : ℝ) (z : ℂ) : ((((2 * c : ℝ) : ℂ) + star z + z) / 2).re = c + z.re := by
    simp
    ring
  rw [← Complex.ofReal_add, parity, real_part, ghzCorrelation, prod_factorMatrix_raised]
  congr 1
  split
  · rw [Complex.re_ofReal_mul, Complex.exp_ofReal_mul_I_re]
  · rfl

/-- The correlator of a product observable in white noise. -/
theorem correlation_one :
    correlation (1 : Operator factors.length) factors =
      if factors.reduceOption.length = 0 then (basisSize factors.length : ℝ) else 0 := by
  rw [correlation_eq, Matrix.one_mul, trace_productMatrix, prod_trace_factorMatrix]
  split
  · exact Complex.natCast_re _
  · rfl

/-- White noise scales a correlator down, and adds its share where nothing is measured. -/
theorem correlation_mixNoise (p : ℝ) (M : Operator factors.length) :
    correlation (mixNoise p M) factors =
      (1 - p) * correlation M factors + p * if factors.reduceOption.length = 0 then 1 else 0 := by
  have size : (basisSize factors.length : ℝ) ≠ 0 := Nat.cast_ne_zero.mpr (basisSize_pos _).ne'
  rw [mixNoise, correlation_add, correlation_smul, correlation_smul, correlation_one]
  split
  · rw [div_mul_cancel₀ _ size, mul_one]
  · rw [mul_zero, mul_zero]

theorem depolarize_ghz {n : ℕ} (pos : 1 ≤ n) (bounded : n ≤ DensityMatrix.maxQubits) (p : Exact) :
    (DensityMatrix.ghz n : DensityMatrix Exact).depolarize p =
      .ofMatrix (mixNoise p.noiseLevel (projector (DensityMatrix.ghzVector n))) := by
  rw [DensityMatrix.ghz_eq, DensityMatrix.clampQubits_eq pos bounded,
    DensityMatrix.depolarize_ofMatrix]

/-- The correlator of a product observable in the entangled state with the share `p` of white
noise. -/
theorem correlation_noisy_ghz (pos : 1 ≤ factors.length) (p : ℝ) :
    correlation (mixNoise p (projector (DensityMatrix.ghzVector factors.length))) factors =
      (1 - p) * ghzCorrelation factors.length factors.reduceOption +
        p * if factors.reduceOption.length = 0 then 1 else 0 := by
  rw [correlation_mixNoise, correlation_ghz pos]

end Nonlocal
