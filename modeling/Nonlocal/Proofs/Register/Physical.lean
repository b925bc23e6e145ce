import Nonlocal.Proofs.Register.Noise

/-!
Physical states: positive semidefinite matrices of trace one.

Every constructor prepares a physical state (`Prepared.isState`), and noise that only adds to the
diagonal keeps states physical, step by step (`Noise.apply_isState`) and over whole runs
(`Noise.run_isState`).
-/

namespace Nonlocal

open Matrix Exact
open scoped ComplexOrder MatrixOrder

variable {q : ℕ}

/-- A density matrix in the sense of physics. -/
structure IsState (M : Operator q) : Prop where
  positive : M.PosSemidef
  trace_eq : M.trace = 1

/-- A state of the simulator on `q` qubits that is physical. -/
def IsStateOn (q : ℕ) (ρ : DensityMatrix Exact) : Prop :=
  ∃ M : Operator q, ρ = .ofMatrix M ∧ IsState M

/-- A positive matrix has a nonnegative expectation value. -/
theorem re_trace_mul_nonneg {n : Type*} [Fintype n] [DecidableEq n] {M N : Matrix n n ℂ}
    (hM : M.PosSemidef) (hN : N.PosSemidef) : 0 ≤ (M * N).trace.re := by
  obtain ⟨B, rfl⟩ := CStarAlgebra.nonneg_iff_eq_star_mul_self.mp hM.nonneg
  rw [star_eq_conjTranspose, Matrix.mul_assoc, trace_mul_comm]
  exact (Complex.nonneg_iff.mp (hN.mul_mul_conjTranspose_same B).trace_nonneg).1

section Involution

variable {n : Type*} [Fintype n] [DecidableEq n] {P A : Matrix n n ℂ}

omit [DecidableEq n] in
/-- The expectation value of an observable is real. -/
theorem trace_mul_eq_re (hP : P.PosSemidef) (hA : Aᴴ = A) :
    (P * A).trace = ((P * A).trace.re : ℂ) := by
  have real : star (P * A).trace = (P * A).trace := by
    rw [← trace_conjTranspose, conjTranspose_mul, hA, hP.1, trace_mul_comm]
  exact (Complex.conj_eq_iff_re.mp real).symm

/-- The expectation value of an observable with the outcomes `±1` is at most the trace. -/
theorem re_trace_mul_le_of_involution (hP : P.PosSemidef) (hA : Aᴴ = A) (hA' : A * A = 1) :
    (P * A).trace.re ≤ P.trace.re := by
  have square : (1 - A)ᴴ * (1 - A) = (1 - A) + (1 - A) := by
    have expanded : (1 - A) * (1 - A) = 1 - A - A + A * A := by noncomm_ring
    rw [conjTranspose_sub, conjTranspose_one, hA, expanded, hA']
    abel
  have gap := re_trace_mul_nonneg hP (posSemidef_conjTranspose_mul_self (1 - A))
  rw [square, Matrix.mul_add, Matrix.mul_sub, Matrix.mul_one, trace_add, trace_sub, Complex.add_re,
    Complex.sub_re] at gap
  linarith

theorem abs_re_trace_mul_le_of_involution (hP : P.PosSemidef) (hA : Aᴴ = A) (hA' : A * A = 1) :
    |(P * A).trace.re| ≤ P.trace.re := by
  have upper := re_trace_mul_le_of_involution hP hA hA'
  have lower := re_trace_mul_le_of_involution (A := -A) hP (by rw [conjTranspose_neg, hA])
    (by rw [Matrix.neg_mul, Matrix.mul_neg, neg_neg, hA'])
  rw [Matrix.mul_neg, trace_neg, Complex.neg_re] at lower
  exact abs_le.mpr ⟨by linarith, upper⟩

end Involution

theorem posSemidef_projector (v : Fin (basisSize q) → ℂ) : (projector v).PosSemidef :=
  posSemidef_vecMulVec_self_star v

theorem isState_projector {v : Fin (basisSize q) → ℂ} (unit : ∑ i, Complex.normSq (v i) = 1) :
    IsState (projector v) where
  positive := posSemidef_projector v
  trace_eq := by
    rw [trace_projector, ← Complex.ofReal_sum, unit, Complex.ofReal_one]

/-! ## Noise -/

/-- A multiple by a nonnegative real number stays positive. -/
theorem posSemidef_smul {M : Operator q} (hM : M.PosSemidef) {c : ℝ} (hc : 0 ≤ c) :
    ((c : ℂ) • M).PosSemidef :=
  hM.smul (Complex.zero_le_real.mpr hc)

theorem IsState.mixNoise {M : Operator q} (hM : IsState M) {p : ℝ} (hp : 0 ≤ p) (hp' : p ≤ 1) :
    IsState (mixNoise p M) where
  positive := by
    have kept : (((1 - p : ℝ) : ℂ) • M).PosSemidef := posSemidef_smul hM.positive (by linarith)
    have white : (((p / basisSize q : ℝ) : ℂ) • (1 : Operator q)).PosSemidef :=
      posSemidef_smul PosSemidef.one (by positivity)
    exact kept.add white
  trace_eq := trace_mixNoise p hM.trace_eq

/-- A list with zeros after its end, summed up to an index. -/
theorem sum_getD (n : ℕ) (xs : List ℝ) : ∑ i : Fin n, xs.getD i 0 = (xs.take n).sum := by
  induction n generalizing xs with
  | zero => simp
  | succ n ih =>
    rcases xs with _ | ⟨x, rest⟩
    · simp
    · rw [Fin.sum_univ_succ, List.take_succ_cons, List.sum_cons, ← ih rest]
      rfl

theorem trace_diagonalNoise (q : ℕ) (noise : List ℝ) :
    (diagonalNoise q noise).trace = ((noise.take (basisSize q)).sum : ℂ) := by
  rw [diagonalNoise, trace_diagonal, ← Complex.ofReal_sum, sum_getD]

/-- What noise on the diagonal makes of the trace one. -/
theorem trace_add_diagonalNoise {M : Operator q} (hM : M.trace = 1) (noise : List ℝ) :
    (M + diagonalNoise q noise).trace = ((1 + (noise.take (basisSize q)).sum : ℝ) : ℂ) := by
  rw [trace_add, hM, trace_diagonalNoise, Complex.ofReal_add, Complex.ofReal_one]

theorem getD_nonneg {noise : List ℝ} (h : ∀ x ∈ noise, 0 ≤ x) (i : ℕ) : 0 ≤ noise.getD i 0 := by
  rw [List.getD_eq_getElem?_getD]
  cases found : noise[i]? with
  | none => exact le_rfl
  | some x => exact h x (List.mem_of_getElem? found)

theorem posSemidef_diagonalNoise {noise : List ℝ} (h : ∀ x ∈ noise, 0 ≤ x) :
    (diagonalNoise q noise).PosSemidef := by
  apply PosSemidef.diagonal
  intro i
  exact Complex.zero_le_real.mpr (getD_nonneg h i)

/-- Noise that only adds to the diagonal leaves a trace that can be normalized: the result is a
nonnegative multiple of trace one. -/
theorem perturb_of_nonneg {M : Operator q} (hM : M.trace = 1) {noise : List ℝ}
    (h : ∀ x ∈ noise, 0 ≤ x) :
    ∃ c : ℝ, 0 ≤ c ∧
      (DensityMatrix.ofMatrix M).perturb (noise.map finite) =
        .ofMatrix ((c : ℂ) • (M + diagonalNoise q noise)) ∧
      ((c : ℂ) • (M + diagonalNoise q noise)).trace = 1 := by
  have total : 0 ≤ (noise.take (basisSize q)).sum :=
    List.sum_nonneg fun x inside => h x (List.mem_of_mem_take inside)
  have trace := trace_add_diagonalNoise hM noise
  have large := le_add_of_nonneg_right (a := (1 : ℝ)) total
  have pos := zero_lt_one.trans_le large
  refine ⟨(1 + (noise.take (basisSize q)).sum)⁻¹, inv_nonneg.mpr pos.le, ?_, ?_⟩
  · rw [DensityMatrix.perturb_ofMatrix, trace, if_neg, Complex.ofReal_inv]
    rw [Complex.norm_real, Real.norm_of_nonneg pos.le]
    exact not_lt.mpr (le_trans (by norm_num) large)
  · rw [trace_smul, trace, smul_eq_mul, ← Complex.ofReal_mul, inv_mul_cancel₀ pos.ne',
      Complex.ofReal_one]

/-- A step that does not take from the diagonal keeps a state physical, and its register. -/
theorem Noise.apply_isState {step : Noise} (nonneg : step.IsNonnegative) {ρ : DensityMatrix Exact}
    (hρ : IsStateOn q ρ) : IsStateOn q (step.apply ρ) := by
  obtain ⟨M, rfl, hM⟩ := hρ
  cases step with
  | depolarize p =>
    have half := p.noiseLevel_le_half
    exact ⟨_, DensityMatrix.depolarize_ofMatrix M p,
      hM.mixNoise p.noiseLevel_nonneg (by linarith)⟩
  | perturb noise =>
    obtain ⟨c, hc, result, normalized⟩ := perturb_of_nonneg hM.trace_eq nonneg
    have sum := hM.positive.add (posSemidef_diagonalNoise nonneg)
    exact ⟨_, result, posSemidef_smul sum hc, normalized⟩

theorem Noise.run_isState {steps : List Noise} (nonneg : ∀ step ∈ steps, step.IsNonnegative)
    {ρ : DensityMatrix Exact} (hρ : IsStateOn q ρ) : IsStateOn q (Noise.run steps ρ) :=
  Noise.run_induction (fun step member _ hρ => Noise.apply_isState (nonneg step member) hρ) hρ

/-! ## Preparation -/

/-- The states that the constructors give. -/
inductive Prepared : DensityMatrix Exact → Prop
  | ghz (n : ℕ) : Prepared (.ghz n)
  | maximallyMixed (n : ℕ) : Prepared (.maximallyMixed n)
  | product {settings : List (Setting Exact)} {ρ : DensityMatrix Exact}
      (finiteAngles : ∀ s ∈ settings, s.isFinite = true)
      (accepted : DensityMatrix.product settings = .ok ρ) : Prepared ρ
  | ofVector {ψ : List ℂ} {ρ : DensityMatrix Exact}
      (accepted : DensityMatrix.ofVector (ψ.map .ofComplex) = .ok ρ) : Prepared ρ

open DensityMatrix

theorem isState_ghz (pos : 1 ≤ q) : IsState (projector (ghzVector q)) where
  positive := posSemidef_projector _
  trace_eq := by
    have different := uniformBits_ne pos
    have corners := trace_ghz_mul pos 1
    rw [Matrix.mul_one] at corners
    rw [corners, one_apply_eq, one_apply_eq, one_apply_ne different, one_apply_ne different.symm]
    norm_num

theorem isState_white (q : ℕ) : IsState ((1 / basisSize q : ℂ) • (1 : Operator q)) := by
  have size : (basisSize q : ℂ) ≠ 0 := Nat.cast_ne_zero.mpr (basisSize_pos q).ne'
  constructor
  · have := posSemidef_smul (PosSemidef.one (n := Fin (basisSize q)) (R := ℂ))
      (show (0 : ℝ) ≤ 1 / basisSize q by positivity)
    simpa using this
  · rw [trace_smul, trace_one, Fintype.card_fin, smul_eq_mul, one_div_mul_cancel size]

/-- The projector onto the eigenvector of a setting. -/
noncomputable def eigenprojector (s : Setting Exact) : Matrix (Fin 2) (Fin 2) ℂ :=
  vecMulVec (eigenvector s) (star (eigenvector s))

theorem trace_eigenprojector (s : Setting Exact) : (eigenprojector s).trace = 1 := by
  have unit : (Real.sin (s.theta.toReal / 2) : ℂ) ^ 2 + (Real.cos (s.theta.toReal / 2) : ℂ) ^ 2 =
      1 := by
    exact_mod_cast Real.sin_sq_add_cos_sq (s.theta.toReal / 2)
  have phases := s.star_phase_mul_phase
  rw [trace_fin_two, eigenprojector, vecMulVec_apply, vecMulVec_apply]
  simp only [eigenvector, Pi.star_apply, cons_val_zero, cons_val_one, star_mul',
    Complex.star_def, Complex.conj_ofReal] at phases ⊢
  linear_combination unit + (Real.sin (s.theta.toReal / 2) : ℂ) ^ 2 * phases

theorem projector_productVector (s : Setting Exact) (rest : List (Setting Exact)) :
    (projector (productVector (s :: rest)) : Operator (rest.length + 1)) =
      kron (eigenprojector s) (projector (productVector rest)) :=
  (kron_vecMulVec (eigenvector s) (productVector rest)).symm

theorem isState_product (settings : List (Setting Exact)) :
    IsState (projector (productVector settings)) where
  positive := posSemidef_projector _
  trace_eq := by
    induction settings with
    | nil =>
      change (projector fun _ : Fin (basisSize 0) => (1 : ℂ)).trace = 1
      rw [trace_projector]
      simp
    | cons s rest ih =>
      change (projector (productVector (s :: rest)) : Operator (rest.length + 1)).trace = 1
      rw [projector_productVector, trace_kron, trace_eigenprojector, ih, one_mul]

theorem sum_normSq_get {ψ : List ℂ} (size : ψ.length = basisSize q) :
    ∑ i : Fin (basisSize q), Complex.normSq (ψ.get (i.cast size.symm)) =
      (ψ.map Complex.normSq).sum :=
  ((finCongr size.symm).sum_comp fun i => Complex.normSq (ψ.get i)).trans
    (Fin.sum_univ_fun_getElem ψ Complex.normSq)

theorem isState_normalized {ψ : List ℂ} (size : ψ.length = basisSize q)
    (large : 1e-12 ≤ √(ψ.map Complex.normSq).sum) :
    IsState (projector fun i : Fin (basisSize q) =>
      ψ.get (i.cast size.symm) / (√(ψ.map Complex.normSq).sum : ℝ)) := by
  have positive : 0 < √(ψ.map Complex.normSq).sum := lt_of_lt_of_le (by norm_num) large
  have square := Real.mul_self_sqrt (Real.sqrt_pos.mp positive).le
  apply isState_projector
  simp_rw [Complex.normSq_div, Complex.normSq_ofReal]
  rw [← Finset.sum_div, sum_normSq_get size, square, div_self (Real.sqrt_pos.mp positive).ne']

/-- Every constructor prepares a physical state. -/
theorem Prepared.isState {ρ : DensityMatrix Exact} (h : Prepared ρ) :
    ∃ q, 1 ≤ q ∧ q ≤ maxQubits ∧ IsStateOn q ρ := by
  cases h with
  | ghz n =>
    exact ⟨_, clampQubits_pos n, clampQubits_le n, _, ghz_eq n, isState_ghz (clampQubits_pos n)⟩
  | maximallyMixed n =>
    exact ⟨_, clampQubits_pos n, clampQubits_le n, _, maximallyMixed_eq n, isState_white _⟩
  | product finiteAngles accepted =>
    obtain ⟨result, pos, le⟩ := product_eq finiteAngles accepted
    exact ⟨_, pos, le, _, result, isState_product _⟩
  | ofVector accepted =>
    obtain ⟨q, size, pos, le, large, result⟩ := ofVector_eq accepted
    exact ⟨q, pos, le, _, result, isState_normalized size large⟩

end Nonlocal
