import Nonlocal.Proofs.Register.Depolarizing
import Nonlocal.Proofs.Register.Expectation

/-!
The operator of a term, entry by entry.

A row and a column of the operator are bit strings, and each qubit reads its own bit of both. The
entry is the product of what the factors have there (`Term.productMatrix_apply`). The observable of
a single qubit is the Pauli vector along the direction of its setting (`Setting.matrix_eq_pauli`).
Main statement: `operators_of_terms`.
-/

namespace Nonlocal

open Matrix Exact

/-! ## Bits of a string -/

/-- The bit of a string that belongs to a qubit; that of qubit zero is the most significant one. -/
def qubitBit {n : ℕ} (r : Fin (basisSize n)) (i : Fin n) : Fin 2 :=
  ⟨(r.val.testBit (n - 1 - i)).toNat, Bool.toNat_lt _⟩

theorem qubitBit_zero {n : ℕ} (r : Fin (basisSize (n + 1))) : qubitBit r 0 = firstBit r := by
  have small : r.val / 2 ^ n < 2 := (firstBit r).isLt
  ext
  change (r.val.testBit n).toNat = r.val / 2 ^ n
  rw [Nat.toNat_testBit, Nat.mod_eq_of_lt small]

theorem qubitBit_succ {n : ℕ} (r : Fin (basisSize (n + 1))) (i : Fin n) :
    qubitBit r i.succ = qubitBit (otherBits r) i := by
  have place : n + 1 - 1 - i.succ.val = n - 1 - i := by
    rw [Fin.val_succ]
    omega
  have inside : n - 1 - i.val < n := by omega
  have bits : (otherBits r).val.testBit (n - 1 - i) = r.val.testBit (n - 1 - i) := by
    change (r.val % 2 ^ n).testBit (n - 1 - i) = _
    rw [Nat.testBit_mod_two_pow, decide_eq_true inside, Bool.true_and]
  simp only [qubitBit, place, bits]

/-! ## Tensor products -/

/-- The entries of a tensor product, qubit by qubit. -/
theorem Term.productMatrix_apply (factors : List (Option (Setting Exact)))
    (r c : Fin (basisSize factors.length)) :
    productMatrix factors r c =
      ∏ i : Fin factors.length, factorMatrix (factors.get i) (qubitBit r i) (qubitBit c i) := by
  induction factors with
  | nil =>
    have same : r = c := Subsingleton.elim (α := Fin 1) r c
    rw [same, productMatrix, one_apply_eq]
    rfl
  | cons f rest ih =>
    change kron (factorMatrix f) (productMatrix rest) r c =
      ∏ i : Fin (rest.length + 1), factorMatrix ((f :: rest).get i) (qubitBit r i) (qubitBit c i)
    rw [kron_apply, ih, Fin.prod_univ_succ, qubitBit_zero, qubitBit_zero]
    simp only [qubitBit_succ]
    rfl

/-- The trace of a tensor product: a qubit that is measured contributes none. -/
theorem Term.trace_productMatrix_eq (factors : List (Option (Setting Exact))) :
    (productMatrix factors).trace =
      if factors.all Option.isNone then (2 : ℂ) ^ factors.length else 0 := by
  rw [trace_productMatrix, prod_trace_factorMatrix]
  simp only [length_reduceOption_eq_zero_iff]
  congr 1
  exact Nat.cast_pow 2 factors.length

section Operators

variable {factors : List (Option (Setting Exact))}

theorem Term.operatorOf_mul_self (angles : AnglesFinite factors) :
    (operatorOf factors).mul (operatorOf factors) = .ofMatrix 1 := by
  rw [operatorOf_eq angles, SquareMatrix.mul_ofMatrix, productMatrix_mul_self]

theorem Term.trace_operatorOf (angles : AnglesFinite factors) :
    (operatorOf factors).trace =
      .ofComplex (if factors.all Option.isNone then 2 ^ factors.length else 0) := by
  rw [operatorOf_eq angles, SquareMatrix.trace_ofMatrix, trace_productMatrix_eq]

end Operators

/-! ## One qubit -/

/-- The three Pauli matrices. -/
def pauliX : Matrix (Fin 2) (Fin 2) ℂ := !![0, 1; 1, 0]

def pauliY : Matrix (Fin 2) (Fin 2) ℂ := !![0, -Complex.I; Complex.I, 0]

def pauliZ : Matrix (Fin 2) (Fin 2) ℂ := !![1, 0; 0, -1]

namespace Setting

theorem direction_eq {s : Setting Exact} (h : s.isFinite = true) :
    s.direction = ⟨finite (Real.sin s.theta.toReal * Real.cos s.phi.toReal),
      finite (Real.sin s.theta.toReal * Real.sin s.phi.toReal),
      finite (Real.cos s.theta.toReal)⟩ := by
  generalize hθ : s.theta.toReal = θ
  generalize hφ : s.phi.toReal = φ
  rw [eq_of_isFinite h, hθ, hφ]
  simp [direction]

theorem direction_unit (s : Setting Exact) :
    (Real.sin s.theta.toReal * Real.cos s.phi.toReal) ^ 2 +
      (Real.sin s.theta.toReal * Real.sin s.phi.toReal) ^ 2 + Real.cos s.theta.toReal ^ 2 = 1 := by
  have polar := Real.sin_sq_add_cos_sq s.theta.toReal
  have azimuth := Real.sin_sq_add_cos_sq s.phi.toReal
  linear_combination polar + Real.sin s.theta.toReal ^ 2 * azimuth

/-- The observable is the Pauli vector along the direction of the setting. -/
theorem matrix_eq_pauli (s : Setting Exact) :
    s.matrix = (Real.sin s.theta.toReal * Real.cos s.phi.toReal : ℝ) • pauliX +
      (Real.sin s.theta.toReal * Real.sin s.phi.toReal : ℝ) • pauliY +
      (Real.cos s.theta.toReal : ℝ) • pauliZ := by
  have phase : s.phase = Real.cos s.phi.toReal + Real.sin s.phi.toReal * Complex.I := by
    rw [Setting.phase, Complex.exp_mul_I, Complex.ofReal_cos, Complex.ofReal_sin]
  have conjugate : star s.phase = Real.cos s.phi.toReal - Real.sin s.phi.toReal * Complex.I := by
    rw [phase]
    simp [sub_eq_add_neg, -Complex.ofReal_cos, -Complex.ofReal_sin]
  rw [matrix, conjugate, phase]
  ext i j
  fin_cases i <;> fin_cases j <;>
    simp [pauliX, pauliY, pauliZ, -Complex.ofReal_cos, -Complex.ofReal_sin] <;> ring

end Setting

/-- The operators of terms and of settings. The operator of a term has a row and a column for each
bit string, and its entries are products over the qubits: each factor contributes its own entry at
the bits that belong to its qubit. It is Hermitian, its square is the identity, and its trace is the
number of bit strings if nothing is measured and zero otherwise. The observable of a setting is the
Pauli vector along the direction of the setting, which is a unit vector. -/
theorem operators_of_terms :
    (∀ t : Term Exact, Term.AnglesFinite t.factors →
      t.operator.HasShape (2 ^ t.qubits) ∧
      (∀ f ∈ t.factors, Term.factorOperator f = .ofMatrix (Term.factorMatrix f)) ∧
      ∃ O : Operator t.qubits, t.operator = .ofMatrix O ∧
        (∀ r c, O r c = ∏ i : Fin t.qubits,
          Term.factorMatrix (t.factors.get i) (qubitBit r i) (qubitBit c i)) ∧
        O.IsHermitian ∧ t.operator.mul t.operator = .ofMatrix 1 ∧
        t.operator.trace =
          .ofComplex (if t.factors.all Option.isNone then 2 ^ t.qubits else 0)) ∧
    ∀ s : Setting Exact, s.isFinite = true →
      ∃ x y z : ℝ, s.direction = ⟨finite x, finite y, finite z⟩ ∧ x ^ 2 + y ^ 2 + z ^ 2 = 1 ∧
        s.observable = .ofMatrix (x • pauliX + y • pauliY + z • pauliZ) := by
  refine ⟨fun t angles => ?_, fun s measured => ?_⟩
  · have built : t.operator = .ofMatrix (Term.productMatrix t.factors) := Term.operatorOf_eq angles
    have single (f) (inside : f ∈ t.factors) :
        Term.factorOperator f = .ofMatrix (Term.factorMatrix f) :=
      Term.factorOperator_eq fun s same => angles s (same ▸ inside)
    refine ⟨SquareMatrix.hasShape _, single, _, built, Term.productMatrix_apply t.factors,
      Term.conjTranspose_productMatrix t.factors, Term.operatorOf_mul_self angles,
      Term.trace_operatorOf angles⟩
  · refine ⟨_, _, _, Setting.direction_eq measured, s.direction_unit, ?_⟩
    rw [Setting.observable_eq measured, s.matrix_eq_pauli]

/-- The first of two qubits is measured along the axis X: its bit is turned around, and it is the
leading one. -/
theorem operators_of_terms_leading :
    let x : Setting Exact := ⟨finite (Real.pi / 2), finite 0⟩
    let t : Term Exact := ⟨[some x, none], 1⟩
    let string (k : Fin 4) : Fin (basisSize 2) := k
    Term.AnglesFinite t.factors ∧
      ∃ O : Operator 2, t.operator = .ofMatrix O ∧ O (string 2) (string 0) = 1 ∧
        O (string 1) (string 0) = 0 ∧ t.operator.trace = .ofComplex 0 := by
  intro x t string
  have angles : Term.AnglesFinite t.factors := by
    intro s measured
    have same : s = x := by simpa [t] using measured
    rw [same]
    rfl
  rcases operators_of_terms.1 t angles with ⟨-, -, O, built, entries, -, -, trace⟩
  have entry (r c : Fin (basisSize 2)) : O r c =
      Term.factorMatrix (some x) (qubitBit r 0) (qubitBit c 0) *
        Term.factorMatrix none (qubitBit r 1) (qubitBit c 1) :=
    (entries r c).trans (Fin.prod_univ_two _)
  have bits : qubitBit (string 2) 0 = 1 ∧ qubitBit (string 2) 1 = 0 ∧
      qubitBit (string 1) 0 = 0 ∧ qubitBit (string 1) 1 = 1 ∧
      qubitBit (string 0) 0 = 0 ∧ qubitBit (string 0) 1 = 0 := by
    decide
  rcases bits with ⟨two, two', one, one', zero, zero'⟩
  refine ⟨angles, O, built, ?_, ?_, trace⟩
  · rw [entry, two, two', zero, zero']
    simp [Term.factorMatrix, Setting.matrix, Setting.phase, x]
  · rw [entry, one, one', zero, zero']
    simp [Term.factorMatrix]

end Nonlocal
