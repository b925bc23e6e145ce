import Nonlocal.Proofs.Register.Physical

/-!
What every register is, whatever noise it has seen.

A state is a Hermitian matrix of trace one over the bit strings of its qubits. Noise of any sign may
take it out of the physical states, but not out of these: the channel is an affine combination, and
a disturbance of the diagonal is divided by its real trace unless it cancels the trace. The
invariant is kept by a step (`Noise.apply_isNormalized`) and by a run (`Noise.run_isNormalized`).
-/

namespace Nonlocal

open Matrix Exact

variable {q : ℕ}

/-- A Hermitian matrix of trace one. -/
structure IsNormalized (M : Operator q) : Prop where
  hermitian : M.IsHermitian
  trace_eq : M.trace = 1

/-- A state of the simulator on `q` qubits that is Hermitian and has trace one. -/
def IsNormalizedOn (q : ℕ) (ρ : DensityMatrix Exact) : Prop :=
  ∃ M : Operator q, ρ = .ofMatrix M ∧ IsNormalized M

/-- A stored matrix has `d` rows, and each of them has `d` entries. -/
structure SquareMatrix.HasShape {K : Type} {n : ℕ} (m : SquareMatrix K n) (d : ℕ) : Prop where
  rows : m.rows.toList.length = d
  columns : ∀ row ∈ m.rows.toList, row.toList.length = d

theorem SquareMatrix.hasShape {K : Type} {n : ℕ} (m : SquareMatrix K n) : m.HasShape n where
  rows := Vector.length_toList
  columns := fun _ _ => Vector.length_toList

theorem IsState.isNormalized {M : Operator q} (hM : IsState M) : IsNormalized M :=
  ⟨hM.positive.1, hM.trace_eq⟩

theorem isNormalizedOn_ghz (n : ℕ) :
    IsNormalizedOn (DensityMatrix.clampQubits n) (DensityMatrix.ghz n) :=
  ⟨_, DensityMatrix.ghz_eq n, (isState_ghz (DensityMatrix.clampQubits_pos n)).isNormalized⟩

/-! ## One step of noise -/

theorem isHermitian_smul {M : Operator q} (hM : M.IsHermitian) {c : ℂ} (real : star c = c) :
    (c • M).IsHermitian := by
  rw [Matrix.IsHermitian, conjTranspose_smul, hM.eq, real]

theorem isHermitian_diagonalNoise (q : ℕ) (noise : List ℝ) :
    (diagonalNoise q noise).IsHermitian := by
  apply isHermitian_diagonal_of_self_adjoint
  funext i
  exact Complex.conj_ofReal _

theorem IsNormalized.mixNoise {M : Operator q} (hM : IsNormalized M) (p : ℝ) :
    IsNormalized (mixNoise p M) where
  hermitian := by
    have kept := isHermitian_smul hM.hermitian (Complex.conj_ofReal (1 - p))
    have white := isHermitian_smul (isHermitian_one (n := Fin (basisSize q)) (α := ℂ))
      (Complex.conj_ofReal (p / basisSize q))
    exact kept.add white
  trace_eq := trace_mixNoise p hM.trace_eq

/-- The trace of a Hermitian matrix is real, so that it can be divided out. -/
theorem isNormalized_inv_trace_smul {M : Operator q} (hM : M.IsHermitian) (positive : M.trace ≠ 0) :
    IsNormalized (M.trace⁻¹ • M) where
  hermitian := by
    have real : star M.trace = M.trace := by
      rw [← trace_conjTranspose, hM.eq]
    exact isHermitian_smul hM (by rw [star_inv₀, real])
  trace_eq := by
    rw [trace_smul, smul_eq_mul, inv_mul_cancel₀ positive]

theorem Noise.apply_isNormalized (step : Noise) {ρ : DensityMatrix Exact}
    (hρ : IsNormalizedOn q ρ) : IsNormalizedOn q (step.apply ρ) := by
  obtain ⟨M, rfl, hM⟩ := hρ
  cases step with
  | depolarize p =>
    exact ⟨_, DensityMatrix.depolarize_ofMatrix M p, hM.mixNoise p.noiseLevel⟩
  | perturb noise =>
    -- Noise may be negative, so nothing bounds the trace from below: either it is too small to be
    -- divided out and the state stays, or it is a real number that can be.
    have result := DensityMatrix.perturb_ofMatrix M noise
    split at result
    · exact ⟨M, result, hM⟩
    · next large =>
      have remains := DensityMatrix.ne_zero_of_large large
      have disturbed := hM.hermitian.add (isHermitian_diagonalNoise q noise)
      exact ⟨_, result, isNormalized_inv_trace_smul disturbed remains⟩

/-! ## Runs -/

theorem Noise.run_isNormalized (steps : List Noise) {ρ : DensityMatrix Exact}
    (hρ : IsNormalizedOn q ρ) : IsNormalizedOn q (Noise.run steps ρ) :=
  Noise.run_induction (fun step _ _ hρ => step.apply_isNormalized hρ) hρ

namespace DensityMatrix

theorem trace_of_isNormalized {M : Operator q} (hM : IsNormalized M) :
    (ofMatrix M).trace = Amplitude.ofScalar 1 := by
  rw [DensityMatrix.trace, SquareMatrix.trace_ofMatrix, hM.trace_eq, one_eq,
    Amplitude.ofScalar_finite, Complex.ofReal_one]

theorem isHermitian_of_isNormalized {M : Operator q} (hM : IsNormalized M) :
    (ofMatrix M).isHermitian 0 = true := by
  rw [DensityMatrix.isHermitian, SquareMatrix.asymmetry_ofMatrix hM.hermitian, zero_eq, finite_le]
  exact decide_eq_true le_rfl

end DensityMatrix

/-- The representation of a register. Whatever a state was prepared as and whatever noise it has
seen, its matrix has one row and one column for each bit string of its one to ten qubits, it is
Hermitian and its trace is one. So terms with one factor for each qubit can always be evaluated. -/
theorem run_representation {ρ : DensityMatrix Exact} (prepared : Prepared ρ) (steps : List Noise) :
    let σ := Noise.run steps ρ
    (1 ≤ σ.qubits ∧ σ.qubits ≤ 10 ∧ σ.dimension = 2 ^ σ.qubits ∧
      σ.matrix.HasShape (2 ^ σ.qubits)) ∧
    (∃ M : Operator σ.qubits, σ.matrix = .ofMatrix M ∧ M.IsHermitian ∧ M.trace = 1) ∧
    (σ.isHermitian 0 = true ∧ σ.trace = Amplitude.ofScalar 1) ∧
    ∀ terms : List (Term Exact), (∀ t ∈ terms, t.qubits = σ.qubits) →
      (∀ t ∈ terms, t.operator.HasShape (2 ^ σ.qubits)) ∧
        ∃ c, Correlators.evaluate σ terms = .ok c := by
  intro σ
  obtain ⟨q, pos, bounded, M₀, start, physical⟩ := prepared.isState
  obtain ⟨M, result, hM⟩ := Noise.run_isNormalized steps ⟨M₀, start, physical.isNormalized⟩
  change σ = _ at result
  rw [result]
  refine ⟨⟨pos, bounded, rfl, SquareMatrix.hasShape _⟩, ⟨M, rfl, hM.hermitian, hM.trace_eq⟩,
    ⟨DensityMatrix.isHermitian_of_isNormalized hM, DensityMatrix.trace_of_isNormalized hM⟩,
    fun terms fits => ⟨fun t member => ?_, (Correlators.exists_evaluate_iff terms).mpr fits⟩⟩
  rw [← fits t member]
  exact SquareMatrix.hasShape _

/-- Noise that cancels the trace, noise that turns its sign around, and more noise than there are
bit strings. -/
theorem run_representation_cancelled :
    let ρ : DensityMatrix Exact := .ghz 0
    let steps : List Noise := [.perturb [-1], .perturb [-3, 1], .depolarize .nan,
      .perturb [0, -7, 5, 5], .depolarize (.infinite false)]
    Prepared ρ ∧ (Noise.run steps ρ).isHermitian 0 = true ∧
      (Noise.run steps ρ).trace = Amplitude.ofScalar 1 := by
  intro ρ steps
  obtain ⟨-, -, represented, -⟩ := run_representation (.ghz 0) steps
  exact ⟨.ghz 0, represented⟩

end Nonlocal
