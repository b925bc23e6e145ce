import Mathlib.Algebra.Star.CHSH
import Nonlocal.Proofs.Chsh.Expression
import Nonlocal.Proofs.Register.Physical

/-!
Tsirelson's bound for every state that the simulator can reach.

In a physical state the CHSH expression is at most `2√2` in absolute value, because the CHSH
operator is at most `2√2` (`abs_chshValue_le`). Every constructor gives a physical state and every
run of noise that does not take from the diagonal keeps it physical, so that the bound holds for the
value that is reported (`abs_exact_le_tsirelson`).
-/

namespace Nonlocal

open Matrix Exact
open scoped ComplexOrder MatrixOrder

variable {q : ℕ}

/-- An operator that is at most a number has an expectation value that is at most this number. -/
theorem IsState.re_trace_mul_le {M X : Operator q} (hM : IsState M) {c : ℝ} (hX : X ≤ c • 1) :
    (M * X).trace.re ≤ c := by
  have gap := re_trace_mul_nonneg hM.positive (Matrix.le_iff.mp hX)
  rw [Matrix.mul_sub, Matrix.mul_smul, Matrix.mul_one, trace_sub, trace_smul, hM.trace_eq,
    Complex.sub_re, Complex.real_smul, mul_one, Complex.ofReal_re] at gap
  linarith

/-- The observables of the parties are commuting involutions. -/
theorem isCHSHTuple (a a' b b' : Setting Exact) :
    IsCHSHTuple (onFirst a) (onFirst a') (onSecond b) (onSecond b') where
  A₀_inv := (sq _).trans (onFirst_mul_self a)
  A₁_inv := (sq _).trans (onFirst_mul_self a')
  B₀_inv := (sq _).trans (onSecond_mul_self b)
  B₁_inv := (sq _).trans (onSecond_mul_self b')
  A₀_sa := conjTranspose_onFirst a
  A₁_sa := conjTranspose_onFirst a'
  B₀_sa := conjTranspose_onSecond b
  B₁_sa := conjTranspose_onSecond b'
  A₀B₀_commutes := (onFirst_mul_onSecond a b).trans (onSecond_mul_onFirst a b).symm
  A₀B₁_commutes := (onFirst_mul_onSecond a b').trans (onSecond_mul_onFirst a b').symm
  A₁B₀_commutes := (onFirst_mul_onSecond a' b).trans (onSecond_mul_onFirst a' b).symm
  A₁B₁_commutes := (onFirst_mul_onSecond a' b').trans (onSecond_mul_onFirst a' b').symm

/-- Exchanging the outcomes of the first party. -/
theorem isCHSHTuple_neg {A A' B B' : Operator q} (h : IsCHSHTuple A A' B B') :
    IsCHSHTuple (-A) (-A') B B' where
  A₀_inv := (neg_sq A).trans h.A₀_inv
  A₁_inv := (neg_sq A').trans h.A₁_inv
  B₀_inv := h.B₀_inv
  B₁_inv := h.B₁_inv
  A₀_sa := by rw [star_neg, h.A₀_sa]
  A₁_sa := by rw [star_neg, h.A₁_sa]
  B₀_sa := h.B₀_sa
  B₁_sa := h.B₁_sa
  A₀B₀_commutes := by rw [neg_mul, mul_neg, h.A₀B₀_commutes]
  A₀B₁_commutes := by rw [neg_mul, mul_neg, h.A₀B₁_commutes]
  A₁B₀_commutes := by rw [neg_mul, mul_neg, h.A₁B₀_commutes]
  A₁B₁_commutes := by rw [neg_mul, mul_neg, h.A₁B₁_commutes]

theorem sqrt_two_pow_three : √2 ^ 3 = 2 * √2 := by
  rw [pow_succ, Real.sq_sqrt zero_le_two]

/-- Tsirelson's bound for a physical state. -/
theorem abs_chshValue_le {M : Operator 2} (hM : IsState M) (a a' b b' : Setting Exact) :
    |chshValue M a a' b b'| ≤ 2 * √2 := by
  have above (A A' B B' : Operator 2) (h : IsCHSHTuple A A' B B') :
      (M * (A * B + A' * B + A * B' - A' * B')).trace.re ≤ 2 * √2 := by
    have bound := tsirelson_inequality A A' B B' h
    rw [sqrt_two_pow_three, add_right_comm] at bound
    exact hM.re_trace_mul_le bound
  have upper := above _ _ _ _ (isCHSHTuple a a' b b')
  -- The operator inequality bounds from above only; the other side is the same bound for a first
  -- party with exchanged outcomes.
  have lower := above _ _ _ _ (isCHSHTuple_neg (isCHSHTuple a a' b b'))
  rw [← chshValue_eq] at upper
  have flipped : -onFirst a * onSecond b + -onFirst a' * onSecond b + -onFirst a * onSecond b' -
      -onFirst a' * onSecond b' = -(onFirst a * onSecond b + onFirst a' * onSecond b +
        onFirst a * onSecond b' - onFirst a' * onSecond b') := by
    noncomm_ring
  rw [flipped, Matrix.mul_neg, trace_neg, Complex.neg_re, ← chshValue_eq] at lower
  exact abs_le.mpr ⟨by linarith, upper⟩

/-- Tsirelson's bound. A register of two qubits, prepared in any way and then exposed to any run of
noise that does not take from the diagonal, has a CHSH value of at most `2√2`, whatever the angles
of the parties. -/
theorem abs_exact_le_tsirelson {ρ : DensityMatrix Exact} (prepared : Prepared ρ)
    (two : ρ.qubits = 2) {steps : List Noise} (nonneg : ∀ step ∈ steps, step.IsNonnegative)
    (a a' b b' : ℝ) :
    ∃ c x, Correlators.evaluate (Noise.run steps ρ)
        (chshTerms (.planar (finite a)) (.planar (finite a')) (.planar (finite b))
          (.planar (finite b'))) = .ok c ∧
      c.exact = finite x ∧ |x| ≤ 2 * √2 := by
  obtain ⟨q, -, -, hρ⟩ := prepared.isState
  obtain rfl : q = 2 := by
    obtain ⟨M, rfl, -⟩ := hρ
    exact two
  obtain ⟨M, result, hM⟩ := Noise.run_isState nonneg hρ
  rw [result, evaluate_chshTerms_planar]
  exact ⟨_, _, rfl, rfl, abs_chshValue_le hM _ _ _ _⟩

/-- An entangled pair under an undefined amount of white noise and two disturbances. -/
theorem abs_exact_le_tsirelson_ghz :
    let steps : List Noise :=
      [.depolarize .nan, .perturb [1, 0, 1 / 2], .depolarize (.infinite false)]
    Prepared (.ghz 2) ∧ (DensityMatrix.ghz 2 : DensityMatrix Exact).qubits = 2 ∧
      (∀ step ∈ steps, step.IsNonnegative) ∧
      ∃ c x, Correlators.evaluate (Noise.run steps (.ghz 2))
          (chshTerms (.planar (finite 0)) (.planar (finite (Real.pi / 2)))
            (.planar (finite (Real.pi / 4))) (.planar (finite (-Real.pi / 4)))) = .ok c ∧
        c.exact = finite x ∧ |x| ≤ 2 * √2 := by
  intro steps
  have nonneg : ∀ step ∈ steps, step.IsNonnegative := by
    simp [steps, Noise.IsNonnegative]
  exact ⟨.ghz 2, rfl, nonneg, abs_exact_le_tsirelson (.ghz 2) rfl nonneg _ _ _ _⟩

end Nonlocal
