import Nonlocal.Proofs.Register.State

/-!
The transformations of a state, and runs of them.

`depolarize_ofMatrix` and `perturb_ofMatrix` give the two transformations as operations on complex
matrices. `Noise.run` applies a list of them, each to the state that the one before it left.
-/

namespace Nonlocal

open Matrix Exact

variable {q : ℕ}

/-- A mixture with white noise, which has the weight `p`. -/
noncomputable def mixNoise (p : ℝ) (M : Operator q) : Operator q :=
  ((1 - p : ℝ) : ℂ) • M + ((p / basisSize q : ℝ) : ℂ) • 1

/-- Real numbers along the diagonal from the top; what is missing is zero and what is left over is
ignored. -/
def diagonalNoise (q : ℕ) (noise : List ℝ) : Operator q :=
  diagonal fun i => (noise.getD i.val 0 : ℂ)

theorem trace_mixNoise (p : ℝ) {M : Operator q} (h : M.trace = 1) : (mixNoise p M).trace = 1 := by
  have size : (basisSize q : ℂ) ≠ 0 := Nat.cast_ne_zero.mpr (basisSize_pos q).ne'
  rw [mixNoise, trace_add, trace_smul, trace_smul, h, trace_one, Fintype.card_fin]
  push_cast
  simp only [smul_eq_mul]
  field_simp
  ring

theorem mixNoise_zero (M : Operator q) : mixNoise 0 M = M := by
  simp [mixNoise]

namespace DensityMatrix

theorem depolarize_ofMatrix (M : Operator q) (p : Exact) :
    (ofMatrix M).depolarize p = ofMatrix (mixNoise p.noiseLevel M) := by
  have size : (basisSize q : ℝ) ≠ 0 := Nat.cast_ne_zero.mpr (basisSize_pos q).ne'
  unfold depolarize
  simp only [depolarizing_eq, zero_eq, finite_eq, decide_eq_true_eq]
  split
  · next quiet => rw [quiet, mixNoise_zero]
  · rw [ofMatrix, ofMatrix, dimension, one_eq, finite_sub, ofNat_eq, finite_div _ size]
    congr 1
    apply SquareMatrix.ext_entry
    intro i j
    rw [SquareMatrix.entry_ofFn, SquareMatrix.entry_ofMatrix, SquareMatrix.entry_ofMatrix, mixNoise]
    by_cases h : i = j <;> simp [h, mul_comm]

/-- The state with noise on its diagonal, before it is normalized. -/
theorem disturb_ofMatrix (M : Operator q) (noise : List ℝ) :
    disturb (.ofMatrix M) (noise.map finite).toArray = .ofMatrix (M + diagonalNoise q noise) := by
  apply SquareMatrix.ext_entry
  intro i j
  rw [disturb, SquareMatrix.entry_ofFn, SquareMatrix.entry_ofMatrix, SquareMatrix.entry_ofMatrix,
    diagonalNoise, Matrix.add_apply]
  by_cases h : i = j
  · subst h
    rw [if_pos rfl, diagonal_apply_eq, List.getElem?_toArray, List.getElem?_map, List.getD]
    cases noise[i.val]? with
    | none => simp
    | some x => simp
  · rw [if_neg h, diagonal_apply_ne _ h, add_zero]

theorem ne_zero_of_large {z : ℂ} (large : ¬‖z‖ < 1e-12) : z ≠ 0 := by
  intro zero
  rw [zero, norm_zero] at large
  norm_num at large

/-- Noise that cancels the trace leaves the state as it is, and other noise is normalized away. -/
theorem perturb_ofMatrix (M : Operator q) (noise : List ℝ) :
    (ofMatrix M).perturb (noise.map finite) =
      if ‖(M + diagonalNoise q noise).trace‖ < 1e-12 then ofMatrix M
      else ofMatrix ((M + diagonalNoise q noise).trace⁻¹ • (M + diagonalNoise q noise)) := by
  unfold perturb
  simp only [ofMatrix, disturb_ofMatrix, SquareMatrix.trace_ofMatrix, Amplitude.norm_ofComplex,
    normFloor_eq, finite_lt, decide_eq_true_eq]
  split
  · rfl
  · next large =>
    congr 1
    rw [SquareMatrix.map_ofMatrix fun z => Amplitude.ofComplex_div z (ne_zero_of_large large)]
    congr 1
    ext i j
    simp [div_eq_inv_mul]

end DensityMatrix

/-! ## Runs of noise -/

/-- One transformation of a state. -/
inductive Noise where
  | depolarize (p : Exact)
  | perturb (noise : List ℝ)

namespace Noise

/-- Transforms a state once. -/
noncomputable def apply : Noise → DensityMatrix Exact → DensityMatrix Exact
  | .depolarize p, ρ => ρ.depolarize p
  | .perturb noise, ρ => ρ.perturb (noise.map finite)

/-- Transforms a state by one step after another. -/
noncomputable def run (steps : List Noise) (ρ : DensityMatrix Exact) : DensityMatrix Exact :=
  steps.foldl (fun ρ step => step.apply ρ) ρ

/-- Does the step only add to the diagonal? -/
def IsNonnegative : Noise → Prop
  | .depolarize _ => True
  | .perturb noise => ∀ x ∈ noise, 0 ≤ x

/-- What every step of a run keeps, the run keeps. -/
theorem run_induction {P : DensityMatrix Exact → Prop} {steps : List Noise}
    (keeps : ∀ step ∈ steps, ∀ ρ, P ρ → P (step.apply ρ)) {ρ : DensityMatrix Exact} (start : P ρ) :
    P (run steps ρ) := by
  induction steps generalizing ρ with
  | nil => exact start
  | cons step steps ih =>
    have next := keeps step List.mem_cons_self ρ start
    exact ih (fun later member => keeps later (List.mem_cons_of_mem step member)) next

theorem qubits_apply (step : Noise) (ρ : DensityMatrix Exact) :
    (step.apply ρ).qubits = ρ.qubits := by
  cases step with
  | depolarize p => exact DensityMatrix.qubits_depolarize ρ p
  | perturb noise => exact DensityMatrix.qubits_perturb ρ _

/-- Noise does not change the register. -/
theorem qubits_run (steps : List Noise) (ρ : DensityMatrix Exact) :
    (run steps ρ).qubits = ρ.qubits :=
  run_induction (P := fun σ => σ.qubits = ρ.qubits)
    (fun step _ σ same => (qubits_apply step σ).trans same) rfl

end Noise

end Nonlocal
