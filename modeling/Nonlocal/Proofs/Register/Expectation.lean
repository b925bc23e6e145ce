import Nonlocal.Proofs.Register.Correlation
import Nonlocal.Proofs.Register.Physical

/-!
Expectation values in physical states.

The operator of a term is a tensor product of observables and identities, hence a Hermitian
involution (`Term.conjTranspose_productMatrix`, `Term.productMatrix_mul_self`). Its expectation
value in a physical state is therefore real and at most one in size, so that a signed sum of such
values is at most their number, and the clamp in front of the sampler leaves them alone
(`run_expectation_bounds`).
-/

namespace Nonlocal

open Matrix Exact
open scoped ComplexOrder MatrixOrder

variable {q : ℕ}

/-! ## The operator of a term -/

namespace Term

theorem conjTranspose_factorMatrix (f : Option (Setting Exact)) :
    (factorMatrix f)ᴴ = factorMatrix f := by
  cases f with
  | none => exact conjTranspose_one
  | some s => exact s.conjTranspose_matrix

theorem factorMatrix_mul_self (f : Option (Setting Exact)) :
    factorMatrix f * factorMatrix f = 1 := by
  cases f with
  | none => exact Matrix.one_mul 1
  | some s => exact s.matrix_mul_self

theorem conjTranspose_productMatrix (factors : List (Option (Setting Exact))) :
    (productMatrix factors)ᴴ = productMatrix factors := by
  induction factors with
  | nil => exact conjTranspose_one
  | cons f rest ih => rw [productMatrix, conjTranspose_kron, conjTranspose_factorMatrix, ih]

theorem productMatrix_mul_self (factors : List (Option (Setting Exact))) :
    productMatrix factors * productMatrix factors = 1 := by
  induction factors with
  | nil => exact Matrix.one_mul 1
  | cons f rest ih => rw [productMatrix, kron_mul_kron, factorMatrix_mul_self, ih, kron_one_one]

/-- A value that a physical state can show. -/
theorem traceMul_of_isState {M : Operator q} (hM : IsState M) {t : Term Exact}
    (size : t.qubits = q) (angles : AnglesFinite t.factors) :
    |correlation M t.factors| ≤ 1 ∧
      SquareMatrix.traceMul (.ofMatrix M) (size ▸ t.operator) =
        Amplitude.ofScalar (finite (correlation M t.factors)) := by
  obtain ⟨factors, sign⟩ := t
  change factors.length = q at size
  subst size
  have self_adjoint := conjTranspose_productMatrix factors
  have involution := productMatrix_mul_self factors
  have real := trace_mul_eq_re hM.positive self_adjoint
  have bound := abs_re_trace_mul_le_of_involution hM.positive self_adjoint involution
  rw [hM.trace_eq, Complex.one_re] at bound
  rw [correlation_eq]
  refine ⟨bound, ?_⟩
  change SquareMatrix.traceMul (.ofMatrix M) (operatorOf factors) = _
  rw [operatorOf_eq angles, SquareMatrix.traceMul_ofMatrix, Amplitude.ofScalar_finite, ← real]

end Term

/-! ## Signed sums -/

theorem abs_sum_le_length {α : Type} {f : α → ℝ} {xs : List α} (h : ∀ x ∈ xs, |f x| ≤ 1) :
    |(xs.map f).sum| ≤ xs.length := by
  induction xs with
  | nil => simp
  | cons x xs ih =>
    obtain ⟨first, others⟩ := List.forall_mem_cons.mp h
    rw [List.map_cons, List.sum_cons, List.length_cons, Nat.cast_add, Nat.cast_one]
    have triangle := abs_add_le (f x) (xs.map f).sum
    have rest := ih others
    linarith

/-- A sign of a term. -/
def Term.IsSigned (t : Term Exact) : Prop :=
  t.sign = 1 ∨ t.sign = -1

theorem Term.IsSigned.isFinite {t : Term Exact} (h : t.IsSigned) :
    Scalar.isFinite t.sign = true := by
  rcases h with plus | minus
  · rw [plus, one_eq]
    rfl
  · rw [minus, one_eq]
    rfl

theorem Term.IsSigned.abs_eq_one {t : Term Exact} (h : t.IsSigned) : |t.sign.toReal| = 1 := by
  rcases h with plus | minus
  · rw [plus, one_eq, toReal_finite, abs_one]
  · rw [minus, one_eq, neg_finite, toReal_finite, abs_neg, abs_one]

theorem Correlators.evaluate_of_isState {M : Operator q} (hM : IsState M)
    {terms : List (Term Exact)}
    (fits : ∀ t ∈ terms, t.qubits = q ∧ Term.AnglesFinite t.factors ∧ t.IsSigned) :
    ∃ c x, evaluate (.ofMatrix M) terms = .ok c ∧ c.exact = finite x ∧ |x| ≤ terms.length ∧
      ∀ v ∈ c.values, Clamp.expectation v = v := by
  have register : ∀ t ∈ terms, t.Fits q := by
    intro t member
    obtain ⟨size, angles, signed⟩ := fits t member
    exact ⟨size, angles, signed.isFinite⟩
  have evaluated := evaluate_ofMatrix M register
  have bounded (t) (member : t ∈ terms) : |correlation M t.factors| ≤ 1 := by
    obtain ⟨size, angles, -⟩ := fits t member
    exact (Term.traceMul_of_isState hM size angles).1
  refine ⟨_, _, evaluated, rfl, ?_, ?_⟩
  · apply abs_sum_le_length
    intro t member
    obtain ⟨-, -, signed⟩ := fits t member
    rw [abs_mul, signed.abs_eq_one, one_mul]
    exact bounded t member
  · intro v shown
    obtain ⟨t, member, rfl⟩ := List.mem_map.mp shown
    exact expectation_of_abs_le_one (bounded t member)

/-- Physicality. Whatever a state was prepared as, noise that does not take from the diagonal leaves
it positive semidefinite. The trace of the state times the operator of a term is then real and at
most one in size; a signed sum over terms is at most their number, and no value is changed by the
clamp in front of the sampler. -/
theorem run_expectation_bounds {ρ : DensityMatrix Exact} (prepared : Prepared ρ)
    {steps : List Noise} (nonneg : ∀ step ∈ steps, step.IsNonnegative) :
    let σ := Noise.run steps ρ
    (∃ M : Operator σ.qubits, σ.matrix = .ofMatrix M ∧ M.PosSemidef) ∧
    (∀ (t : Term Exact) (size : t.qubits = σ.qubits), Term.AnglesFinite t.factors →
      ∃ x : ℝ, |x| ≤ 1 ∧
        SquareMatrix.traceMul σ.matrix (size ▸ t.operator) = Amplitude.ofScalar (finite x) ∧
        t.expectation σ size = finite x) ∧
    ∀ terms : List (Term Exact),
      (∀ t ∈ terms, t.qubits = σ.qubits ∧ Term.AnglesFinite t.factors ∧ t.IsSigned) →
        ∃ c x, Correlators.evaluate σ terms = .ok c ∧ c.exact = finite x ∧ |x| ≤ terms.length ∧
          ∀ v ∈ c.values, Clamp.expectation v = v := by
  intro σ
  obtain ⟨q, -, -, start⟩ := prepared.isState
  obtain ⟨M, result, hM⟩ := Noise.run_isState nonneg start
  change σ = _ at result
  rw [result]
  refine ⟨⟨M, rfl, hM.positive⟩, fun t size angles => ?_, fun terms fits => ?_⟩
  · obtain ⟨bound, real⟩ := Term.traceMul_of_isState hM size angles
    exact ⟨_, bound, real, Term.expectation_ofMatrix angles M size⟩
  · exact Correlators.evaluate_of_isState hM fits

/-- Three qubits with noise in excess, two of them measured in two ways. -/
theorem run_expectation_bounds_noisy_ghz :
    let ρ : DensityMatrix Exact := .ghz 3
    let steps : List Noise := [.depolarize (.infinite false), .perturb [0, 2, 1 / 2]]
    let term (sign : Exact) : Term Exact :=
      ⟨[some ⟨finite 1, finite 2⟩, none, some (.planar (finite 3))], sign⟩
    Prepared ρ ∧ (∀ step ∈ steps, step.IsNonnegative) ∧
      ∃ c x, Correlators.evaluate (Noise.run steps ρ) [term 1, term (-1)] = .ok c ∧
        c.exact = finite x ∧ |x| ≤ 2 ∧ ∀ v ∈ c.values, Clamp.expectation v = v := by
  intro ρ steps term
  have nonneg : ∀ step ∈ steps, step.IsNonnegative := by
    norm_num [steps, Noise.IsNonnegative]
  have size : (Noise.run steps ρ).qubits = 3 :=
    (Noise.qubits_run steps ρ).trans (DensityMatrix.qubits_ghz (by decide) (by decide))
  have angles (sign : Exact) : Term.AnglesFinite (term sign).factors := by
    intro s measured
    simp only [term, List.mem_cons, Option.some.injEq, reduceCtorEq, false_or, List.not_mem_nil,
      or_false] at measured
    rcases measured with rfl | rfl <;> rfl
  obtain ⟨-, -, sums⟩ := run_expectation_bounds (.ghz 3) nonneg
  refine ⟨.ghz 3, nonneg, sums _ ?_⟩
  exact List.forall_mem_cons.mpr ⟨⟨size.symm, angles 1, .inl rfl⟩,
    List.forall_mem_singleton.mpr ⟨size.symm, angles (-1), .inr rfl⟩⟩

end Nonlocal
