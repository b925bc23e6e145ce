import Nonlocal.Proofs.Chsh.Expression
import Nonlocal.Proofs.Register.Physical

/-!
The classical limit for separable states.

A separable matrix is a sum of products of positive matrices. On a product the correlators of the
two parties factor, and each factor is at most a trace in absolute value, so that the CHSH
expression of a separable state is at most two (`Separable.abs_chshValue_le`). White noise and noise
on the diagonal are separable themselves and keep states separable (`Noise.run_isSeparable`).
-/

namespace Nonlocal

open Matrix Exact
open scoped ComplexOrder MatrixOrder

/-- A sum of products of positive matrices of the two qubits. -/
inductive Separable : Operator 2 → Prop
  | product {P : Matrix (Fin 2) (Fin 2) ℂ} {Q : Operator 1} (hP : P.PosSemidef)
      (hQ : Q.PosSemidef) : Separable (kron P Q)
  | add {M N : Operator 2} (hM : Separable M) (hN : Separable N) : Separable (M + N)

/-- A separable state of the simulator. -/
def IsSeparable (ρ : DensityMatrix Exact) : Prop :=
  ∃ M : Operator 2, ρ = .ofMatrix M ∧ Separable M ∧ M.trace = 1

/-! ## The CHSH expression of a separable matrix -/

/-- The CHSH inequality for numbers. -/
theorem abs_chsh_le {x x' y y' s t : ℝ} (hx : |x| ≤ s) (hx' : |x'| ≤ s) (hy : |y| ≤ t)
    (hy' : |y'| ≤ t) : |x * y + x' * y + x * y' - x' * y'| ≤ 2 * (s * t) := by
  have regroup : x * y + x' * y + x * y' - x' * y' = (x + x') * y + (x - x') * y' := by ring
  have spread : |x + x'| + |x - x'| ≤ 2 * s := by
    rw [abs_le] at hx hx'
    rcases abs_cases (x + x') with ⟨h, -⟩ | ⟨h, -⟩ <;>
      rcases abs_cases (x - x') with ⟨h', -⟩ | ⟨h', -⟩ <;> linarith
  have ht : 0 ≤ t := (abs_nonneg y).trans hy
  calc |x * y + x' * y + x * y' - x' * y'|
      ≤ |x + x'| * |y| + |x - x'| * |y'| := by
        rw [regroup, ← abs_mul, ← abs_mul]
        exact abs_add_le _ _
    _ ≤ |x + x'| * t + |x - x'| * t := by gcongr
    _ ≤ 2 * (s * t) := by nlinarith

/-- On a product the correlator of two settings is the product of their expectation values. -/
theorem pairCorrelation_kron {P : Matrix (Fin 2) (Fin 2) ℂ} {Q : Operator 1} (hP : P.PosSemidef)
    (hQ : Q.PosSemidef) (a b : Setting Exact) :
    pairCorrelation (kron P Q) a b =
      (P * a.matrix).trace.re * (Q * kron b.matrix (1 : Operator 0)).trace.re := by
  rw [pairCorrelation_eq, onFirst_mul_onSecond, kron_mul_kron, trace_kron,
    trace_mul_eq_re hP a.conjTranspose_matrix, trace_mul_eq_re hQ (b.conjTranspose_kron_one 0),
    ← Complex.ofReal_mul]
  simp only [Complex.ofReal_re]

/-- The classical limit for a separable matrix. -/
theorem Separable.abs_chshValue_le {M : Operator 2} (hM : Separable M) (a a' b b' : Setting Exact) :
    |chshValue M a a' b b'| ≤ 2 * M.trace.re := by
  induction hM with
  | @product P Q hP hQ =>
    have first (s : Setting Exact) : |(P * s.matrix).trace.re| ≤ P.trace.re :=
      abs_re_trace_mul_le_of_involution hP s.conjTranspose_matrix s.matrix_mul_self
    have second (s : Setting Exact) :
        |(Q * kron s.matrix (1 : Operator 0)).trace.re| ≤ Q.trace.re :=
      abs_re_trace_mul_le_of_involution hQ (s.conjTranspose_kron_one 0) (s.kron_one_mul_self 0)
    have total : (kron P Q).trace.re = P.trace.re * Q.trace.re := by
      have hP' := trace_mul_eq_re hP conjTranspose_one
      have hQ' := trace_mul_eq_re hQ conjTranspose_one
      rw [Matrix.mul_one] at hP' hQ'
      rw [trace_kron, hP', hQ', ← Complex.ofReal_mul]
      simp only [Complex.ofReal_re]
    rw [chshValue, total]
    simp only [pairCorrelation_kron hP hQ]
    exact abs_chsh_le (first a) (first a') (second b) (second b')
  | @add M N _ _ ihM ihN =>
    have split : chshValue (M + N) a a' b b' = chshValue M a a' b b' + chshValue N a a' b b' := by
      simp only [chshValue, pairCorrelation, correlation_add]
      ring
    rw [split, trace_add, Complex.add_re]
    linarith [abs_add_le (chshValue M a a' b b') (chshValue N a a' b b')]

/-! ## Noise -/

theorem Separable.smul {M : Operator 2} (hM : Separable M) {c : ℝ} (hc : 0 ≤ c) :
    Separable ((c : ℂ) • M) := by
  induction hM with
  | @product P Q hP hQ =>
    have scaled : (c : ℂ) • kron P Q = kron ((c : ℂ) • P) Q := by
      ext i j
      simp [kron_apply, mul_assoc]
    rw [scaled]
    exact .product (hP.smul (Complex.zero_le_real.mpr hc)) hQ
  | add _ _ ihM ihN =>
    rw [smul_add]
    exact ihM.add ihN

theorem separable_one : Separable 1 := by
  rw [← kron_one_one]
  exact .product PosSemidef.one PosSemidef.one

/-- Noise on the diagonal is separable: it is a product for each value of the first bit. -/
theorem separable_diagonalNoise {noise : List ℝ} (h : ∀ x ∈ noise, 0 ≤ x) :
    Separable (diagonalNoise 2 noise) := by
  let weights (b : Fin 2) (k : Fin (basisSize 1)) : ℂ := (noise.getD (joinBits b k).val 0 : ℝ)
  have decomposition : diagonalNoise 2 noise =
      kron (diagonal ![1, 0]) (diagonal (weights 0)) +
        kron (diagonal ![0, 1]) (diagonal (weights 1)) := by
    ext i j
    -- Both strings are split, so that the first bit decides which of the two products is left.
    obtain ⟨⟨b, k⟩, rfl⟩ := (splitBits 1).symm.surjective i
    obtain ⟨⟨c, l⟩, rfl⟩ := (splitBits 1).symm.surjective j
    change diagonalNoise 2 noise (joinBits b k) (joinBits c l) =
      kron _ _ (joinBits b k) (joinBits c l) + kron _ _ (joinBits b k) (joinBits c l)
    simp only [kron_apply, firstBit_joinBits, otherBits_joinBits, diagonalNoise, diagonal_apply,
      joinBits_inj, weights]
    by_cases hk : k = l
    · subst hk
      fin_cases b <;> fin_cases c <;> simp
    · simp [hk]
  have weights_nonneg (b : Fin 2) : (diagonal (weights b) : Operator 1).PosSemidef :=
    PosSemidef.diagonal fun k => Complex.zero_le_real.mpr (getD_nonneg h _)
  have first_bit (d : Fin 2 → ℂ) (hd : 0 ≤ d) : (diagonal d).PosSemidef := PosSemidef.diagonal hd
  rw [decomposition]
  refine .add (.product (first_bit _ ?_) (weights_nonneg 0))
    (.product (first_bit _ ?_) (weights_nonneg 1))
  all_goals
    intro b
    fin_cases b <;> simp

/-- A step that does not take from the diagonal keeps a state separable. -/
theorem Noise.apply_isSeparable {step : Noise} (nonneg : step.IsNonnegative)
    {ρ : DensityMatrix Exact} (hρ : IsSeparable ρ) : IsSeparable (step.apply ρ) := by
  obtain ⟨M, rfl, hM, trace⟩ := hρ
  cases step with
  | depolarize p =>
    have half := p.noiseLevel_le_half
    refine ⟨_, DensityMatrix.depolarize_ofMatrix M p, ?_, trace_mixNoise _ trace⟩
    have kept := hM.smul (show 0 ≤ 1 - p.noiseLevel by linarith)
    have white := separable_one.smul
      (div_nonneg p.noiseLevel_nonneg (Nat.cast_nonneg (basisSize 2)))
    exact kept.add white
  | perturb noise =>
    obtain ⟨c, hc, result, normalized⟩ := perturb_of_nonneg trace nonneg
    have sum := hM.add (separable_diagonalNoise nonneg)
    exact ⟨_, result, sum.smul hc, normalized⟩

theorem Noise.run_isSeparable {steps : List Noise} (nonneg : ∀ step ∈ steps, step.IsNonnegative)
    {ρ : DensityMatrix Exact} (hρ : IsSeparable ρ) : IsSeparable (Noise.run steps ρ) :=
  Noise.run_induction (fun step member _ hρ => Noise.apply_isSeparable (nonneg step member) hρ) hρ

/-! ## Preparation -/

/-- Two settings always have a product state, and it is separable. -/
theorem exists_product_pair {s t : Setting Exact} (hs : s.isFinite = true)
    (ht : t.isFinite = true) :
    ∃ ρ, DensityMatrix.product [s, t] = .ok ρ ∧ IsSeparable ρ := by
  have both : ∀ u ∈ [s, t], u.isFinite = true := by simp [hs, ht]
  have accepted : DensityMatrix.product [s, t] = .ok (.ofKet (DensityMatrix.productKet [s, t])) :=
    rfl
  obtain ⟨result, -, -⟩ := DensityMatrix.product_eq both accepted
  refine ⟨_, accepted, _, result, ?_, (isState_product [s, t]).trace_eq⟩
  have factors : projector (DensityMatrix.productVector [s, t]) =
      kron (eigenprojector s) (projector (DensityMatrix.productVector [t])) :=
    projector_productVector s [t]
  rw [factors]
  exact .product (posSemidef_vecMulVec_self_star _) (posSemidef_projector _)

theorem isSeparable_maximallyMixed : IsSeparable (.maximallyMixed 2) := by
  have white : Separable ((1 / basisSize 2 : ℂ) • (1 : Operator 2)) := by
    simpa using separable_one.smul (show (0 : ℝ) ≤ 1 / basisSize 2 by positivity)
  exact ⟨_, DensityMatrix.maximallyMixed_eq 2, white, (isState_white 2).trace_eq⟩

/-- The classical limit. Two qubits that are prepared independently of each other, or in white
noise, and then exposed to any run of noise that does not take from the diagonal, have a CHSH value
of at most two, whatever the angles of the parties. -/
theorem abs_exact_le_classical {s t : Setting Exact} (hs : s.isFinite = true)
    (ht : t.isFinite = true) {steps : List Noise} (nonneg : ∀ step ∈ steps, step.IsNonnegative)
    (a a' b b' : ℝ) :
    ∃ ρ, DensityMatrix.product [s, t] = .ok ρ ∧
      ∀ start ∈ [ρ, .maximallyMixed 2],
        ∃ c x, Correlators.evaluate (Noise.run steps start)
            (chshTerms (.planar (finite a)) (.planar (finite a')) (.planar (finite b))
              (.planar (finite b'))) = .ok c ∧
          c.exact = finite x ∧ |x| ≤ 2 := by
  obtain ⟨ρ, accepted, separable⟩ := exists_product_pair hs ht
  refine ⟨ρ, accepted, fun start member => ?_⟩
  have hstart : IsSeparable start := by
    simp only [List.mem_cons, List.not_mem_nil, or_false] at member
    rcases member with rfl | rfl
    · exact separable
    · exact isSeparable_maximallyMixed
  obtain ⟨M, result, hM, trace⟩ := Noise.run_isSeparable nonneg hstart
  rw [result, evaluate_chshTerms_planar]
  have bound := hM.abs_chshValue_le (.planar (finite a)) (.planar (finite a')) (.planar (finite b))
    (.planar (finite b'))
  rw [trace, Complex.one_re, mul_one] at bound
  exact ⟨_, _, rfl, rfl, bound⟩

/-- Two qubits in opposite directions under white noise and a disturbance. -/
theorem abs_exact_le_classical_opposite :
    let up : Setting Exact := .planar (finite 0)
    let down : Setting Exact := .planar (finite Real.pi)
    let steps : List Noise := [.depolarize (finite 2), .perturb [0, 3]]
    up.isFinite = true ∧ down.isFinite = true ∧ (∀ step ∈ steps, step.IsNonnegative) ∧
      ∃ ρ, DensityMatrix.product [up, down] = .ok ρ ∧
        ∀ start ∈ [ρ, .maximallyMixed 2],
          ∃ c x, Correlators.evaluate (Noise.run steps start)
              (chshTerms (.planar (finite 0)) (.planar (finite (Real.pi / 2)))
                (.planar (finite (Real.pi / 4))) (.planar (finite (-Real.pi / 4)))) = .ok c ∧
            c.exact = finite x ∧ |x| ≤ 2 := by
  intro up down steps
  have nonneg : ∀ step ∈ steps, step.IsNonnegative := by
    simp [steps, Noise.IsNonnegative]
  exact ⟨rfl, rfl, nonneg, abs_exact_le_classical rfl rfl nonneg _ _ _ _⟩

end Nonlocal
