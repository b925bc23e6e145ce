import Nonlocal.Proofs.Register.Fit
import Nonlocal.Proofs.Register.Observable

/-!
The states of the simulator as complex matrices.

Each constructor and each transformation of `DensityMatrix` is given as an operation on complex
matrices: pure states are projectors, the depolarizing channel is a convex combination with white
noise, and a disturbance of the diagonal adds a diagonal matrix and divides by the trace.
-/

namespace Nonlocal

open Matrix Exact

variable {q : ℕ}

/-- The rank-one operator `|v⟩⟨v|`. -/
def projector (v : Fin (basisSize q) → ℂ) : Operator q :=
  vecMulVec v (star v)

theorem trace_projector (v : Fin (basisSize q) → ℂ) :
    (projector v).trace = ∑ i, (Complex.normSq (v i) : ℂ) := by
  refine Finset.sum_congr rfl fun i _ => ?_
  exact Complex.mul_conj (v i)

/-- The tensor product of projectors is the projector of the tensor product. -/
theorem kron_vecMulVec (u : Fin 2 → ℂ) (v : Fin (basisSize q) → ℂ) :
    kron (vecMulVec u (star u)) (projector v) =
      projector fun i => u (firstBit i) * v (otherBits i) := by
  ext i j
  rw [kron_apply, projector, projector, vecMulVec_apply, vecMulVec_apply, vecMulVec_apply]
  simp only [Pi.star_apply, star_mul']
  ring

namespace DensityMatrix

/-- A complex matrix as an exact state. -/
abbrev ofMatrix (M : Operator q) : DensityMatrix Exact :=
  ⟨q, .ofMatrix M⟩

theorem ofKet_ofFn (v : Fin (basisSize q) → ℂ) :
    ofKet (Vector.ofFn fun i => Amplitude.ofComplex (v i)) = ofMatrix (projector v) := by
  rw [ofKet, ofMatrix]
  congr 1
  exact SquareMatrix.ext_entry fun i j => by simp [projector, vecMulVec_apply]

theorem normFloor_eq : (normFloor : Exact) = finite 1e-12 := rfl

/-! ## Constructors -/

/-- Equal weights on the strings of zeros and of ones. -/
noncomputable def ghzVector (q : ℕ) (i : Fin (basisSize q)) : ℂ :=
  if i = uniformBits q 0 ∨ i = uniformBits q 1 then (√2 / 2 : ℝ) else 0

theorem ghz_eq (n : ℕ) :
    (ghz n : DensityMatrix Exact) = ofMatrix (projector (ghzVector (clampQubits n))) := by
  rw [ghz, ← ofKet_ofFn, ghzKet]
  congr 2
  funext i
  have zeros : i.val = 0 ↔ i = uniformBits _ 0 := by
    rw [Fin.ext_iff, val_uniformBits_zero]
  have ones : i.val = basisSize (clampQubits n) - 1 ↔ i = uniformBits _ 1 := by
    rw [Fin.ext_iff, val_uniformBits_one]
  simp only [zeros, ones, ghzVector]
  split
  · simp [sqrt_finite]
  · exact Amplitude.zero_eq

/-- The two strings of equal bits have the same weight, and no other string has any. -/
theorem ghzVector_eq (pos : 1 ≤ q) :
    ghzVector q = ((√2 / 2 : ℝ) : ℂ) •
      (Pi.single (uniformBits q 0) 1 + Pi.single (uniformBits q 1) 1) := by
  have different := uniformBits_ne pos
  funext i
  rw [ghzVector]
  by_cases zeros : i = uniformBits q 0
  · simp [zeros, different]
  · by_cases ones : i = uniformBits q 1
    · simp [ones, different.symm]
    · simp [zeros, ones]

theorem half_weight : ((√2 / 2 : ℝ) : ℂ) * ((√2 / 2 : ℝ) : ℂ) = 1 / 2 := by
  have square : √2 / 2 * (√2 / 2) = (1 / 2 : ℝ) := by
    have := Real.mul_self_sqrt (show (0 : ℝ) ≤ 2 by norm_num)
    linear_combination this / 4
  rw [← Complex.ofReal_mul, square]
  norm_num

/-- An operator meets the entangled state in its four corners. -/
theorem trace_ghz_mul (pos : 1 ≤ q) (O : Operator q) :
    (projector (ghzVector q) * O).trace =
      (O (uniformBits q 0) (uniformBits q 0) + O (uniformBits q 1) (uniformBits q 1) +
        O (uniformBits q 0) (uniformBits q 1) + O (uniformBits q 1) (uniformBits q 0)) / 2 := by
  rw [projector, ghzVector_eq pos, vecMulVec_mul, trace_vecMulVec]
  simp only [star_smul, star_add, Pi.star_single, star_one, smul_vecMul, add_vecMul,
    single_one_vecMul, dotProduct_smul, smul_dotProduct, add_dotProduct, dotProduct_add,
    single_one_dotProduct, row_apply, Complex.star_def, Complex.conj_ofReal, smul_eq_mul]
  linear_combination (O (uniformBits q 0) (uniformBits q 0) +
    O (uniformBits q 1) (uniformBits q 1) + O (uniformBits q 0) (uniformBits q 1) +
    O (uniformBits q 1) (uniformBits q 0)) * half_weight

/-- The entangled state is not white noise: its corners off the diagonal are occupied. -/
theorem projector_ghzVector_ne (pos : 1 ≤ q) :
    projector (ghzVector q) ≠ (1 / basisSize q : ℂ) • (1 : Operator q) := by
  intro white
  have different := uniformBits_ne pos
  have corner : projector (ghzVector q) (uniformBits q 0) (uniformBits q 1) = 1 / 2 := by
    rw [← half_weight, projector, vecMulVec_apply]
    simp [ghzVector]
  rw [white, Matrix.smul_apply, one_apply_ne different] at corner
  norm_num at corner

theorem maximallyMixed_eq (n : ℕ) : (maximallyMixed n : DensityMatrix Exact) =
    ofMatrix ((1 / basisSize (clampQubits n) : ℂ) • (1 : Operator (clampQubits n))) := by
  have size : (basisSize (clampQubits n) : ℝ) ≠ 0 :=
    Nat.cast_ne_zero.mpr (basisSize_pos _).ne'
  rw [maximallyMixed, ofMatrix]
  congr 1
  apply SquareMatrix.ext_entry
  intro i j
  rw [SquareMatrix.entry_ofFn, SquareMatrix.entry_ofMatrix, one_eq, ofNat_eq, finite_div _ size]
  by_cases h : i = j <;> simp [h]

/-- The `+1` eigenvector of a setting with finite angles. -/
noncomputable def eigenvector (s : Setting Exact) : Fin 2 → ℂ :=
  ![(Real.cos (s.theta.toReal / 2) : ℂ), Real.sin (s.theta.toReal / 2) * s.phase]

theorem eigenket_eq {s : Setting Exact} (h : s.isFinite = true) (b : Fin 2) :
    s.eigenket b = .ofComplex (eigenvector s b) := by
  rw [eigenvector, Setting.phase]
  generalize hθ : s.theta.toReal = θ
  generalize hφ : s.phi.toReal = φ
  rw [Setting.eq_of_isFinite h, hθ, hφ]
  fin_cases b <;> simp [Setting.eigenket, Amplitude.polar_finite]

/-- The tensor product of the eigenvectors of settings. -/
noncomputable def productVector :
    (settings : List (Setting Exact)) → Fin (basisSize settings.length) → ℂ
  | [] => fun _ => 1
  | s :: rest => fun i => eigenvector s (firstBit i) * productVector rest (otherBits i)

theorem productKetFrom_eq {settings : List (Setting Exact)}
    (h : ∀ s ∈ settings, s.isFinite = true) (z : ℂ) :
    productKetFrom (.ofComplex z) settings =
      Vector.ofFn fun i => .ofComplex (z * productVector settings i) := by
  induction settings generalizing z with
  | nil => simp [productKetFrom, productVector]
  | cons s rest ih =>
    have others := ih fun t ht => h t (List.mem_cons_of_mem s ht)
    rw [productKetFrom]
    simp only [eigenket_eq (h s List.mem_cons_self), Amplitude.ofComplex_mul, others]
    congr 1
    funext i
    simp [productVector, mul_assoc]

theorem productKet_eq {settings : List (Setting Exact)} (h : ∀ s ∈ settings, s.isFinite = true) :
    productKet settings = Vector.ofFn fun i => .ofComplex (productVector settings i) := by
  rw [productKet, Exact.one_eq, Amplitude.ofScalar_finite, Complex.ofReal_one,
    productKetFrom_eq h]
  simp only [one_mul]

/-- A product state of accepted size is the projector of the product vector. -/
theorem product_eq {settings : List (Setting Exact)} (h : ∀ s ∈ settings, s.isFinite = true)
    {ρ : DensityMatrix Exact} (accepted : product settings = .ok ρ) :
    ρ = ofMatrix (projector (productVector settings)) ∧
      1 ≤ settings.length ∧ settings.length ≤ maxQubits := by
  unfold product at accepted
  split at accepted
  · cases accepted
  · next size =>
    injection accepted with same
    rw [← same, productKet_eq h, ofKet_ofFn]
    simp only [Bool.or_eq_true, List.isEmpty_iff, decide_eq_true_eq, not_or, not_lt] at size
    exact ⟨rfl, List.length_pos_iff.mpr size.1, size.2⟩

/-- The Euclidean norm of a complex vector. -/
theorem ketNorm_eq (ψ : List ℂ) :
    ketNorm (ψ.map .ofComplex) = finite √(ψ.map Complex.normSq).sum := by
  have nonneg : 0 ≤ (ψ.map Complex.normSq).sum := by
    apply List.sum_nonneg
    simp [Complex.normSq_nonneg]
  have squares : (ψ.map .ofComplex).map Amplitude.normSq = (ψ.map Complex.normSq).map finite := by
    simp
  rw [ketNorm, squares, sum_finite, sqrt_finite nonneg]

/-- The registers that state vectors are accepted for. -/
theorem registerOf?_bounds {length q : ℕ} (h : registerOf? length = some q) :
    1 ≤ q ∧ q ≤ maxQubits := by
  obtain ⟨n, member, found⟩ := List.exists_of_findSome?_eq_some h
  split at found
  · injection found with same
    have := List.mem_range.mp member
    omega
  · cases found

/-- An accepted vector has a supported length and is not too short; the state is the projector of
the vector divided by its norm. -/
theorem ofVector_eq {ψ : List ℂ} {ρ : DensityMatrix Exact}
    (accepted : ofVector (ψ.map .ofComplex) = .ok ρ) :
    ∃ (q : ℕ) (size : ψ.length = basisSize q), 1 ≤ q ∧ q ≤ maxQubits ∧
      1e-12 ≤ √(ψ.map Complex.normSq).sum ∧
      ρ = ofMatrix (projector fun i =>
        ψ.get (i.cast size.symm) / (√(ψ.map Complex.normSq).sum : ℝ)) := by
  unfold ofVector at accepted
  split at accepted
  · cases accepted
  · next q found =>
    have bounds := registerOf?_bounds found
    have size := basisSize_of_registerOf? found
    rw [List.length_map] at size
    simp only [ketNorm_eq, normFloor_eq, finite_lt, decide_eq_true_eq] at accepted
    split at accepted
    · cases accepted
    · next norm =>
      injection accepted with same
      have positive : √(ψ.map Complex.normSq).sum ≠ 0 := by
        intro zero
        rw [zero] at norm
        norm_num at norm
      refine ⟨q, size, bounds.1, bounds.2, not_lt.mp norm, ?_⟩
      rw [← same, ← ofKet_ofFn]
      congr 1
      ext i hi
      simp [Amplitude.divScalar_ofComplex _ positive]

end DensityMatrix

end Nonlocal
