import Nonlocal.Proofs.Register.Noise

/-!
Correlators as traces.

`correlation` is the expectation value of a product observable in a state. Evaluating terms with
finite angles that fit the register succeeds (`evaluate_ofMatrix`): it returns their correlations in
order, and as the exact value their sum with the signs of the terms.
-/

namespace Nonlocal

open Matrix Exact Term

variable {q : ℕ}

/-- The real part of the trace of a state times a product observable of its size. -/
noncomputable def correlation (M : Operator q) (factors : List (Option (Setting Exact))) : ℝ :=
  if size : factors.length = q then ((M * (size ▸ productMatrix factors)).trace).re else 0

theorem correlation_eq {factors : List (Option (Setting Exact))} (M : Operator factors.length) :
    correlation M factors = (M * productMatrix factors).trace.re :=
  dif_pos rfl

theorem correlation_add (M N : Operator q) (factors : List (Option (Setting Exact))) :
    correlation (M + N) factors = correlation M factors + correlation N factors := by
  unfold correlation
  split
  · rw [Matrix.add_mul, trace_add, Complex.add_re]
  · rw [add_zero]

theorem correlation_smul (c : ℝ) (M : Operator q) (factors : List (Option (Setting Exact))) :
    correlation ((c : ℂ) • M) factors = c * correlation M factors := by
  unfold correlation
  split
  · rw [Matrix.smul_mul, trace_smul, smul_eq_mul, Complex.re_ofReal_mul]
  · rw [mul_zero]

/-- A first qubit that is not entangled with the others can be taken out. -/
theorem correlation_kron {P : Matrix (Fin 2) (Fin 2) ℂ} (M : Operator q)
    {f : Option (Setting Exact)} {factors : List (Option (Setting Exact))}
    (size : factors.length = q) {x : ℝ} (first : (P * factorMatrix f).trace = (x : ℂ)) :
    correlation (kron P M) (f :: factors) = x * correlation M factors := by
  subst size
  have whole : correlation (kron P M) (f :: factors) =
      (kron P M * productMatrix (f :: factors)).trace.re :=
    @correlation_eq (f :: factors) (kron P M)
  rw [whole, correlation_eq, productMatrix, kron_mul_kron, trace_kron, first,
    Complex.re_ofReal_mul]

/-- A term that measures nothing shows the trace. -/
theorem correlation_of_unmeasured {factors : List (Option (Setting Exact))}
    (unmeasured : ∀ f ∈ factors, f = none) (size : factors.length = q) (M : Operator q) :
    correlation M factors = M.trace.re := by
  subst size
  rw [correlation_eq, productMatrix_of_unmeasured unmeasured, Matrix.mul_one]

namespace Term

/-- A term of a register whose angles and sign are finite. -/
structure Fits (t : Term Exact) (q : ℕ) : Prop where
  size : t.qubits = q
  angles : AnglesFinite t.factors
  sign : Scalar.isFinite t.sign = true

theorem expectation_ofMatrix {t : Term Exact} (finiteAngles : AnglesFinite t.factors)
    (M : Operator q) (size : t.qubits = q) :
    t.expectation (.ofMatrix M) size = finite (correlation M t.factors) := by
  obtain ⟨factors, sign⟩ := t
  change factors.length = q at size
  subst size
  rw [correlation_eq]
  change (SquareMatrix.traceMul (.ofMatrix M) (operatorOf factors)).re = _
  rw [operatorOf_eq finiteAngles, SquareMatrix.traceMul_ofMatrix, Amplitude.re_ofComplex]

end Term

namespace Correlators

theorem valuesFrom_ofMatrix (M : Operator q) {terms : List (Term Exact)}
    (fits : ∀ t ∈ terms, t.qubits = q ∧ AnglesFinite t.factors) (index : ℕ) :
    valuesFrom (.ofMatrix M) index terms =
      .ok (terms.map fun t => finite (correlation M t.factors)) := by
  induction terms generalizing index with
  | nil => rfl
  | cons t rest ih =>
    obtain ⟨⟨size, angles⟩, remaining⟩ := List.forall_mem_cons.mp fits
    have others := ih remaining (index + 1)
    rw [valuesFrom, dif_pos size, others, expectation_ofMatrix angles]
    rfl

/-- A signed sum of real numbers is their sum with these signs. -/
theorem signedSum_finite {α : Type} (sign value : α → ℝ) (xs : List α) :
    signedSum (xs.map fun x => finite (sign x)) (xs.map fun x => finite (value x)) =
      finite (xs.map fun x => sign x * value x).sum := by
  have total := foldl_finite (g := fun acc x => acc + finite (sign x) * finite (value x))
    (f := fun x => sign x * value x) (fun _ _ => rfl) xs 0
  rw [signedSum, List.zip_map', List.foldl_map, zero_eq, total, zero_add]

/-- Evaluation of terms that fit the register. -/
theorem evaluate_ofMatrix (M : Operator q) {terms : List (Term Exact)}
    (fits : ∀ t ∈ terms, t.Fits q) :
    evaluate (.ofMatrix M) terms = .ok {
      values := terms.map fun t => finite (correlation M t.factors)
      signs := terms.map Term.sign
      exact := finite (terms.map fun t => t.sign.toReal * correlation M t.factors).sum } := by
  have signs : terms.map Term.sign = terms.map fun t => finite t.sign.toReal :=
    List.map_congr_left fun t ht => eq_finite_of_isFinite (fits t ht).sign
  rw [evaluate, valuesFrom_ofMatrix M fun t ht => ⟨(fits t ht).size, (fits t ht).angles⟩]
  change Except.ok _ = _
  rw [signs, signedSum_finite]

end Correlators

end Nonlocal
