import Mathlib.Data.List.GetD
import Nonlocal.Proofs.Register.Expectation
import Nonlocal.Proofs.Register.Representation

/-!
States of vectors of any length.

A vector is accepted if its length is that of a register and its norm is not too small
(`DensityMatrix.exists_ofVector_iff`). The state is then the projector onto the line of the vector:
it does not depend on the norm of the vector or on its phase, and an observable has the expectation
value that the vector gives it. Main statement: `vectors_prepare_projectors`.
-/

namespace Nonlocal

open Matrix Exact

variable {q : ℕ}

/-! ## Projectors onto lines -/

/-- The projector onto the multiples of a vector. -/
noncomputable def lineProjector (v : Fin (basisSize q) → ℂ) : Operator q :=
  (star v ⬝ᵥ v)⁻¹ • projector v

/-- The value of an observable in a vector of any norm. -/
noncomputable def ketValue (v : Fin (basisSize q) → ℂ) (O : Operator q) : ℂ :=
  (star v ⬝ᵥ O *ᵥ v) / (star v ⬝ᵥ v)

theorem projector_smul (c : ℂ) (v : Fin (basisSize q) → ℂ) :
    projector (c • v) = (c * star c) • projector v := by
  rw [projector, projector, star_smul, smul_vecMulVec, vecMulVec_smul, smul_smul]

theorem dotProduct_smul_self (c : ℂ) (v : Fin (basisSize q) → ℂ) :
    star (c • v) ⬝ᵥ (c • v) = c * star c * (star v ⬝ᵥ v) := by
  rw [star_smul, smul_dotProduct, dotProduct_smul, smul_smul, mul_comm (star c), smul_eq_mul]

/-- Neither the norm of a vector nor its phase matters. -/
theorem lineProjector_smul {c : ℂ} (nonzero : c ≠ 0) (v : Fin (basisSize q) → ℂ) :
    lineProjector (c • v) = lineProjector v := by
  have weight : c * star c ≠ 0 := mul_ne_zero nonzero (star_ne_zero.mpr nonzero)
  rw [lineProjector, lineProjector, dotProduct_smul_self, projector_smul, smul_smul, mul_inv,
    mul_right_comm, inv_mul_cancel₀ weight, one_mul]

/-- A vector divided by its norm. -/
theorem projector_div {v : Fin (basisSize q) → ℂ} {r : ℝ} (norm : star v ⬝ᵥ v = ((r * r : ℝ) : ℂ)) :
    (projector fun i => v i / r) = lineProjector v := by
  have scaled : (fun i => v i / r) = ((r : ℂ)⁻¹) • v := by
    funext i
    rw [Pi.smul_apply, smul_eq_mul, div_eq_inv_mul]
  rw [scaled, projector_smul, lineProjector, norm, star_inv₀, Complex.star_def, Complex.conj_ofReal,
    Complex.ofReal_mul, mul_inv]

/-- The expectation value of an observable in the state of a vector. -/
theorem trace_lineProjector_mul (v : Fin (basisSize q) → ℂ) (O : Operator q) :
    (lineProjector v * O).trace = ketValue v O := by
  rw [ketValue, lineProjector, Matrix.smul_mul, trace_smul, projector, vecMulVec_mul, trace_vecMulVec,
    dotProduct_comm v, ← dotProduct_mulVec, smul_eq_mul, div_eq_inv_mul]

theorem lineProjector_mul_self {v : Fin (basisSize q) → ℂ} (nonzero : star v ⬝ᵥ v ≠ 0) :
    lineProjector v * lineProjector v = lineProjector v := by
  have square : projector v * projector v = (star v ⬝ᵥ v) • projector v := by
    rw [projector, vecMulVec_mul_vecMulVec, vecMulVec_smul]
  rw [lineProjector, Matrix.smul_mul, Matrix.mul_smul, square,
    inv_smul_smul₀ nonzero]

/-! ## Lists of amplitudes -/

/-- The entries of a list along the bit strings of a register. -/
def ketVector (ψ : List ℂ) (q : ℕ) (i : Fin (basisSize q)) : ℂ :=
  ψ.getD i 0

theorem ketVector_map (c : ℂ) (ψ : List ℂ) (q : ℕ) :
    ketVector (ψ.map (c * ·)) q = c • ketVector ψ q := by
  funext i
  rw [Pi.smul_apply, ketVector, ketVector, List.getD_eq_getElem?_getD, List.getD_eq_getElem?_getD,
    List.getElem?_map]
  cases ψ[i.val]? <;> simp

section Length

variable {ψ : List ℂ} (size : ψ.length = basisSize q)

include size

theorem ketVector_eq_get (i : Fin (basisSize q)) : ketVector ψ q i = ψ.get (i.cast size.symm) :=
  List.getD_eq_getElem ψ 0 (i.isLt.trans_eq size.symm)

theorem dotProduct_ketVector_self :
    star (ketVector ψ q) ⬝ᵥ ketVector ψ q = ((ψ.map Complex.normSq).sum : ℝ) := by
  rw [← sum_normSq_get size, dotProduct, Complex.ofReal_sum]
  refine Finset.sum_congr rfl fun i _ => ?_
  rw [Pi.star_apply, ketVector_eq_get size, mul_comm]
  exact Complex.mul_conj _

end Length

namespace DensityMatrix

theorem registerOf?_basisSize {n : ℕ} (pos : 1 ≤ n) (le : n ≤ maxQubits) :
    registerOf? (basisSize n) = some n := by
  cases found : registerOf? (basisSize n) with
  | none =>
    have missed := List.findSome?_eq_none_iff.mp found (n - 1) (List.mem_range.mpr (by omega))
    rw [Nat.sub_add_cancel pos, if_pos rfl] at missed
    cases missed
  | some q =>
    have same : basisSize n = basisSize q := basisSize_of_registerOf? found
    exact congrArg some (Nat.pow_right_injective le_rfl same).symm

/-- The vectors that are accepted. -/
theorem exists_ofVector_iff {ψ : List ℂ} :
    (∃ ρ, ofVector (ψ.map .ofComplex) = .ok ρ) ↔
      (∃ n, 1 ≤ n ∧ n ≤ maxQubits ∧ ψ.length = basisSize n) ∧
        1e-12 ≤ √(ψ.map Complex.normSq).sum := by
  constructor
  · rintro ⟨ρ, accepted⟩
    rcases ofVector_eq accepted with ⟨n, size, pos, le, large, -⟩
    exact ⟨⟨n, pos, le, size⟩, large⟩
  · rintro ⟨⟨n, pos, le, size⟩, large⟩
    have register : registerOf? (ψ.map Amplitude.ofComplex).length = some n := by
      rw [List.length_map, size, registerOf?_basisSize pos le]
    unfold ofVector
    split
    · next none =>
      rw [register] at none
      cases none
    · simp only [ketNorm_eq, normFloor_eq, finite_lt, decide_eq_true_eq]
      rw [if_neg large.not_gt]
      exact ⟨_, rfl⟩

/-- The state of an accepted vector. -/
theorem ofVector_eq_lineProjector {ψ : List ℂ} {ρ : DensityMatrix Exact}
    (accepted : ofVector (ψ.map .ofComplex) = .ok ρ) :
    ∃ q, ψ.length = basisSize q ∧ 0 < (ψ.map Complex.normSq).sum ∧
      IsState (lineProjector (ketVector ψ q)) ∧ ρ = ofMatrix (lineProjector (ketVector ψ q)) := by
  rcases ofVector_eq accepted with ⟨q, size, -, -, large, result⟩
  have positive : 0 < (ψ.map Complex.normSq).sum :=
    Real.sqrt_pos.mp (lt_of_lt_of_le (by norm_num) large)
  have norm : star (ketVector ψ q) ⬝ᵥ ketVector ψ q =
      ((√(ψ.map Complex.normSq).sum * √(ψ.map Complex.normSq).sum : ℝ) : ℂ) := by
    rw [dotProduct_ketVector_self size, Real.mul_self_sqrt positive.le]
  have state := isState_normalized size large
  simp only [← ketVector_eq_get size] at state result
  rw [projector_div norm] at state result
  exact ⟨q, size, positive, state, result⟩

/-- Multiples of a vector have the same state. -/
theorem eq_of_ofVector_map {ψ : List ℂ} {c : ℂ} {ρ σ : DensityMatrix Exact}
    (accepted : ofVector (ψ.map .ofComplex) = .ok ρ)
    (multiple : ofVector ((ψ.map (c * ·)).map .ofComplex) = .ok σ) : σ = ρ := by
  rcases ofVector_eq_lineProjector accepted with ⟨q, size, -, -, rfl⟩
  rcases ofVector_eq_lineProjector multiple with ⟨r, size', positive, -, rfl⟩
  have register : q = r := by
    rw [List.length_map, size] at size'
    exact Nat.pow_right_injective le_rfl size'
  subst register
  have nonzero : c ≠ 0 := by
    rintro rfl
    simp at positive
  rw [ketVector_map, lineProjector_smul nonzero]

end DensityMatrix

/-- The only qubit of a register has the entries of its own operator. -/
theorem kron_one_apply (A : Matrix (Fin 2) (Fin 2) ℂ) (i j : Fin 2) :
    kron A (1 : Operator 0) i j = A i j := by
  have first (k : Fin 2) : @firstBit 0 k = k := Fin.ext (Nat.div_one k.val)
  have others : @otherBits 0 i = @otherBits 0 j := Subsingleton.elim (α := Fin 1) _ _
  rw [kron_apply, first, first, others, one_apply_eq, mul_one]

/-- What a vector gives an observable is a real number. -/
theorem Term.exists_value {v : Fin (basisSize q) → ℂ} (state : IsState (lineProjector v))
    {t : Term Exact} (size : t.qubits = q) (angles : Term.AnglesFinite t.factors) :
    ∃ O : Operator q, .ofMatrix O = size ▸ t.operator ∧
      (correlation (lineProjector v) t.factors : ℂ) = ketValue v O := by
  rcases t with ⟨factors, sign⟩
  change factors.length = q at size
  subst size
  refine ⟨productMatrix factors, (operatorOf_eq angles).symm, ?_⟩
  rw [← trace_lineProjector_mul, correlation_eq]
  exact (trace_mul_eq_re state.positive (conjTranspose_productMatrix factors)).symm

/-- Preparing the state of a vector. It succeeds exactly on vectors with an entry for each string of
one to ten bits whose norm is not too small. The state has trace one and is its own square; every
multiple of the vector that is accepted has the same state; and a term with a factor for each qubit
has the value that its operator has in the vector, which is divided by the square of its norm. -/
theorem vectors_prepare_projectors (ψ : List ℂ) :
    ((∃ ρ, DensityMatrix.ofVector (ψ.map .ofComplex) = .ok ρ) ↔
      (∃ n, 1 ≤ n ∧ n ≤ 10 ∧ ψ.length = 2 ^ n) ∧ 1e-12 ≤ √(ψ.map Complex.normSq).sum) ∧
    ∀ ρ, DensityMatrix.ofVector (ψ.map .ofComplex) = .ok ρ →
      ψ.length = 2 ^ ρ.qubits ∧ ρ.trace = Amplitude.ofScalar 1 ∧
      ρ.matrix.mul ρ.matrix = ρ.matrix ∧
      (∀ c σ, DensityMatrix.ofVector ((ψ.map (c * ·)).map .ofComplex) = .ok σ → σ = ρ) ∧
      ∀ terms : List (Term Exact),
        (∀ t ∈ terms, t.qubits = ρ.qubits ∧ Term.AnglesFinite t.factors) →
        ∃ c, Correlators.evaluate ρ terms = .ok c ∧
          List.Forall₂ (fun t value => ∃ (size : t.qubits = ρ.qubits) (O : Operator ρ.qubits)
            (x : ℝ), .ofMatrix O = size ▸ t.operator ∧ value = finite x ∧
              (x : ℂ) = ketValue (ketVector ψ ρ.qubits) O) terms c.values := by
  refine ⟨DensityMatrix.exists_ofVector_iff, fun ρ accepted => ?_⟩
  have multiples (c σ) (multiple : DensityMatrix.ofVector ((ψ.map (c * ·)).map .ofComplex) = .ok σ) :
      σ = ρ := DensityMatrix.eq_of_ofVector_map accepted multiple
  rcases DensityMatrix.ofVector_eq_lineProjector accepted with ⟨q, size, positive, state, rfl⟩
  have nonzero : star (ketVector ψ q) ⬝ᵥ ketVector ψ q ≠ 0 := by
    rw [dotProduct_ketVector_self size]
    exact Complex.ofReal_ne_zero.mpr positive.ne'
  refine ⟨size, DensityMatrix.trace_of_isNormalized state.isNormalized, ?_, multiples,
    fun terms fits => ?_⟩
  · rw [SquareMatrix.mul_ofMatrix, lineProjector_mul_self nonzero]
  · have values := Correlators.valuesFrom_ofMatrix (lineProjector (ketVector ψ q)) fits 0
    refine ⟨_, by rw [Correlators.evaluate, values]; rfl, ?_⟩
    rw [List.forall₂_map_right_iff, List.forall₂_same]
    intro t member
    rcases fits t member with ⟨register, angles⟩
    rcases Term.exists_value state register angles with ⟨O, operator, value⟩
    exact ⟨register, O, _, operator, rfl, value⟩

/-- A vector with a phase between its entries, which is neither normalized nor real: measured along
the axis Y, it gives the value one. -/
theorem vectors_prepare_projectors_phase :
    let ψ : List ℂ := [2, 2 * Complex.I]
    let y : Setting Exact := ⟨finite (Real.pi / 2), finite (Real.pi / 2)⟩
    let term : Term Exact := ⟨[some y], 1⟩
    ∃ ρ c, DensityMatrix.ofVector (ψ.map .ofComplex) = .ok ρ ∧
      (∀ t ∈ [term], t.qubits = ρ.qubits ∧ Term.AnglesFinite t.factors) ∧
      Correlators.evaluate ρ [term] = .ok c ∧ c.values = [finite 1] := by
  intro ψ y term
  rcases vectors_prepare_projectors ψ with ⟨accepts, results⟩
  have norm : 1e-12 ≤ √(ψ.map Complex.normSq).sum := by
    apply Real.le_sqrt_of_sq_le
    norm_num [ψ]
  rcases accepts.mpr ⟨⟨1, le_rfl, by decide, rfl⟩, norm⟩ with ⟨⟨q, m⟩, accepted⟩
  rcases results _ accepted with ⟨size, -, -, -, values⟩
  obtain rfl : 1 = q := Nat.pow_right_injective le_rfl size
  have angles : Term.AnglesFinite term.factors := by
    intro s measured
    have same : s = y := by simpa [term] using measured
    rw [same]
    rfl
  have fits : ∀ t ∈ [term], t.qubits = 1 ∧ Term.AnglesFinite t.factors :=
    List.forall_mem_singleton.mpr ⟨rfl, angles⟩
  rcases values [term] fits with ⟨c, evaluated, shown⟩
  refine ⟨_, c, accepted, fits, evaluated, ?_⟩
  rcases List.forall₂_cons_left_iff.mp shown with ⟨_, _, ⟨_, O, x, operator, rfl, value⟩, rest, same⟩
  have along : O = kron y.matrix 1 :=
    SquareMatrix.ofMatrix_injective (operator.trans (Term.operatorOf_eq angles))
  have phase : y.phase = Complex.I := by
    rw [Setting.phase, toReal_finite, Complex.exp_mul_I]
    simp
  have matrix : y.matrix = !![0, -Complex.I; Complex.I, 0] := by
    rw [Setting.matrix, phase]
    simp [y]
  -- The vector is an eigenvector of the observable.
  have fixed : O *ᵥ ketVector ψ 1 = ketVector ψ 1 := by
    rw [along, matrix]
    funext (i : Fin 2)
    change ∑ j : Fin 2, kron _ (1 : Operator 0) i j * ketVector ψ 1 j = ketVector ψ 1 i
    rw [Fin.sum_univ_two, kron_one_apply, kron_one_apply]
    fin_cases i
    · simp [ketVector, ψ, mul_left_comm Complex.I]
    · simp [ketVector, ψ, mul_comm]
  have one : x = 1 := by
    rw [ketValue, fixed, div_self] at value
    · exact_mod_cast value
    · rw [dotProduct_ketVector_self size]
      norm_num [ψ]
  rw [same, List.forall₂_nil_left_iff.mp rest, one]

end Nonlocal
