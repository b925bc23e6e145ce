import Nonlocal.Proofs.Register.Tensor

/-!
The observables of measurement settings and their tensor products, as complex matrices.

A setting's observable is a Hermitian involution without trace. `Term.productMatrix` is the tensor
product of a list of factors; `operatorOf_eq` says that the simulator builds this matrix whenever
the angles are finite.
-/

namespace Nonlocal

open Matrix Exact
open scoped ComplexOrder

namespace Setting

/-- The phase between the two basis states. -/
noncomputable def phase (s : Setting Exact) : ℂ :=
  Complex.exp (s.phi.toReal * Complex.I)

/-- The observable of a setting with finite angles. -/
noncomputable def matrix (s : Setting Exact) : Matrix (Fin 2) (Fin 2) ℂ :=
  !![(Real.cos s.theta.toReal : ℂ), Real.sin s.theta.toReal * star s.phase;
    Real.sin s.theta.toReal * s.phase, -(Real.cos s.theta.toReal : ℂ)]

theorem star_phase (s : Setting Exact) :
    star s.phase = Complex.exp ((-s.phi.toReal : ℝ) * Complex.I) := by
  rw [phase, Complex.star_def, ← Complex.exp_conj]
  simp

theorem star_phase_mul_phase (s : Setting Exact) : star s.phase * s.phase = 1 := by
  rw [star_phase, phase, ← Complex.exp_add]
  simp

/-- A setting with finite angles is given by two real numbers. -/
theorem eq_of_isFinite {s : Setting Exact} (h : s.isFinite = true) :
    s = ⟨finite s.theta.toReal, finite s.phi.toReal⟩ := by
  obtain ⟨hθ, hφ⟩ := Bool.and_eq_true_iff.mp h
  rw [← eq_finite_of_isFinite hθ, ← eq_finite_of_isFinite hφ]

theorem isFinite_planar (θ : ℝ) : (planar (finite θ)).isFinite = true := rfl

theorem observable_eq {s : Setting Exact} (h : s.isFinite = true) :
    s.observable = .ofMatrix s.matrix := by
  apply SquareMatrix.ext_entry
  intro i j
  rw [SquareMatrix.entry_ofMatrix, observable, SquareMatrix.entry_ofFn, matrix, star_phase, phase]
  generalize hθ : s.theta.toReal = θ
  generalize hφ : s.phi.toReal = φ
  rw [eq_of_isFinite h, hθ, hφ]
  fin_cases i <;> fin_cases j <;>
    simp [Amplitude.polar_finite]

theorem conjTranspose_matrix (s : Setting Exact) : s.matrixᴴ = s.matrix := by
  ext i j
  fin_cases i <;> fin_cases j <;>
    simp [matrix, -Complex.ofReal_cos, -Complex.ofReal_sin]

theorem matrix_mul_self (s : Setting Exact) : s.matrix * s.matrix = 1 := by
  have unit : (Real.sin s.theta.toReal : ℂ) ^ 2 + (Real.cos s.theta.toReal : ℂ) ^ 2 = 1 := by
    exact_mod_cast Real.sin_sq_add_cos_sq s.theta.toReal
  have phases := s.star_phase_mul_phase
  rw [matrix, mul_fin_two, one_fin_two]
  generalize (Real.sin s.theta.toReal : ℂ) = x at unit ⊢
  generalize (Real.cos s.theta.toReal : ℂ) = z at unit ⊢
  have first : z * z + x * star s.phase * (x * s.phase) = 1 := by
    linear_combination unit + x ^ 2 * phases
  have upper : z * (x * star s.phase) + x * star s.phase * -z = 0 := by ring
  have lower : x * s.phase * z + -z * (x * s.phase) = 0 := by ring
  have last : x * s.phase * (x * star s.phase) + -z * -z = 1 := by
    linear_combination first
  rw [first, upper, lower, last]

theorem trace_matrix (s : Setting Exact) : s.matrix.trace = 0 := by
  simp [matrix, trace_fin_two]

theorem conjTranspose_kron_one (s : Setting Exact) (q : ℕ) :
    (kron s.matrix (1 : Operator q))ᴴ = kron s.matrix 1 := by
  rw [conjTranspose_kron, s.conjTranspose_matrix, conjTranspose_one]

theorem kron_one_mul_self (s : Setting Exact) (q : ℕ) :
    kron s.matrix (1 : Operator q) * kron s.matrix 1 = 1 := by
  rw [kron_mul_kron, s.matrix_mul_self, Matrix.one_mul, kron_one_one]

end Setting

namespace Term

/-- The matrix of one factor. -/
noncomputable def factorMatrix : Option (Setting Exact) → Matrix (Fin 2) (Fin 2) ℂ
  | some s => s.matrix
  | none => 1

/-- The tensor product of the matrices of all factors. -/
noncomputable def productMatrix :
    (factors : List (Option (Setting Exact))) → Operator factors.length
  | [] => 1
  | f :: rest => kron (factorMatrix f) (productMatrix rest)

/-- Are the angles of all measured factors finite? -/
def AnglesFinite (factors : List (Option (Setting Exact))) : Prop :=
  ∀ s, some s ∈ factors → s.isFinite = true

theorem factorOperator_eq {f : Option (Setting Exact)} (h : ∀ s, some s = f → s.isFinite = true) :
    factorOperator f = .ofMatrix (factorMatrix f) := by
  cases f with
  | none =>
    apply SquareMatrix.ext_entry
    intro i j
    simp [factorOperator, identity, factorMatrix, Matrix.one_apply, apply_ite Amplitude.ofComplex]
  | some s => exact Setting.observable_eq (h s rfl)

/-- The simulator multiplies the entries of the tensor product up from the number that it starts
with. -/
theorem operatorFrom_eq {factors : List (Option (Setting Exact))} (h : AnglesFinite factors)
    (z : ℂ) : operatorFrom (.ofComplex z) factors = .ofMatrix (z • productMatrix factors) := by
  induction factors generalizing z with
  | nil =>
    apply SquareMatrix.ext_entry
    intro i j
    obtain rfl : i = j := Subsingleton.elim (α := Fin 1) i j
    simp [operatorFrom, productMatrix]
  | cons f rest ih =>
    have first := factorOperator_eq fun s hs => h s (hs ▸ List.mem_cons_self)
    have others := ih fun s hs => h s (List.mem_cons_of_mem f hs)
    have built := ofBlocks_smul (z • factorMatrix f) (productMatrix rest)
    rw [smul_kron] at built
    rw [operatorFrom, first]
    simp only [SquareMatrix.entry_ofMatrix, Amplitude.ofComplex_mul, others]
    exact built

/-- The simulator builds the tensor product. -/
theorem operatorOf_eq {factors : List (Option (Setting Exact))} (h : AnglesFinite factors) :
    operatorOf factors = .ofMatrix (productMatrix factors) := by
  rw [operatorOf, Exact.one_eq, Amplitude.ofScalar_finite, Complex.ofReal_one,
    operatorFrom_eq h, one_smul]

/-- Strings of equal bits meet in the product of the factors' entries at these bits. -/
theorem productMatrix_uniformBits (factors : List (Option (Setting Exact))) (b c : Fin 2) :
    productMatrix factors (uniformBits _ b) (uniformBits _ c) =
      (factors.map fun f => factorMatrix f b c).prod := by
  induction factors with
  | nil => simp [productMatrix, Matrix.one_apply, uniformBits, basisSize]
  | cons f rest ih =>
    change kron (factorMatrix f) (productMatrix rest) (uniformBits (rest.length + 1) b)
      (uniformBits (rest.length + 1) c) = _
    rw [uniformBits_succ, uniformBits_succ, kron_apply, firstBit_joinBits, firstBit_joinBits,
      otherBits_joinBits, otherBits_joinBits, ih, List.map_cons, List.prod_cons]

theorem productMatrix_of_unmeasured {factors : List (Option (Setting Exact))}
    (unmeasured : ∀ f ∈ factors, f = none) : productMatrix factors = 1 := by
  induction factors with
  | nil => rfl
  | cons f rest ih =>
    obtain ⟨rfl, others⟩ := List.forall_mem_cons.mp unmeasured
    rw [productMatrix, ih others]
    exact kron_one_one

theorem trace_productMatrix (factors : List (Option (Setting Exact))) :
    (productMatrix factors).trace = (factors.map fun f => (factorMatrix f).trace).prod := by
  induction factors with
  | nil => simp [productMatrix]
  | cons f rest ih => rw [productMatrix, trace_kron, ih, List.map_cons, List.prod_cons]

end Term

end Nonlocal
