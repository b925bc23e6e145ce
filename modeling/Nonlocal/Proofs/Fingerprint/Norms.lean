import Nonlocal.Fingerprint
import Nonlocal.Proofs.Exact.Unitary
import Nonlocal.Proofs.Fingerprint.Purity

/-!
What the fingerprints of a state measure.

A seed gives a unitary matrix: its random matrix has finite entries and therefore a unitary factor,
and turning the columns of this factor by phases keeps it unitary (`Fingerprint.exists_unitary`). The
unitary fingerprint is then the root of the purity, whatever the seed is. The other fingerprint is
the largest column sum, which a root of the dimension separates from it at most. Main statement:
`fingerprints_measure_purity`.
-/

namespace Nonlocal

open Matrix Exact

namespace Fingerprint

variable {n : ℕ}

/-! ## The unitary of a seed -/

/-- The phase of a number; zero has none. -/
noncomputable def phase (z : ℂ) : ℂ :=
  if z = 0 then 1 else z / ‖z‖

theorem phase_mul_star (z : ℂ) : phase z * star (phase z) = 1 := by
  rw [Complex.star_def, Complex.mul_conj, Complex.normSq_eq_norm_sq, phase]
  split
  · simp
  · next turned => simp [norm_ne_zero_iff.mpr turned]

/-- The phases of the diagonal. -/
noncomputable def phases (R : Matrix (Fin n) (Fin n) ℂ) : Matrix (Fin n) (Fin n) ℂ :=
  diagonal fun j => phase (R j j)

theorem phases_mem_unitaryGroup (R : Matrix (Fin n) (Fin n) ℂ) :
    phases R ∈ unitaryGroup (Fin n) ℂ := by
  rw [mem_unitaryGroup_iff, star_eq_conjTranspose, phases, diagonal_conjTranspose,
    diagonal_mul_diagonal, ← diagonal_one]
  exact congrArg diagonal (funext fun j => phase_mul_star (R j j))

theorem foldPhases_ofMatrix [Kernels] (Q R : Matrix (Fin n) (Fin n) ℂ) :
    foldPhases (.ofMatrix Q) (.ofMatrix R) = .ofMatrix (Q * phases R) := by
  apply SquareMatrix.ext_entry
  intro i j
  rw [foldPhases, SquareMatrix.entry_ofFn, SquareMatrix.entry_ofMatrix, SquareMatrix.entry_ofMatrix,
    SquareMatrix.entry_ofMatrix, phases, mul_diagonal, phase]
  simp only [Amplitude.norm_ofComplex, zero_eq, finite_lt, decide_eq_true_eq, norm_pos_iff]
  by_cases still : R j j = 0
  · rw [if_neg (not_not.mpr still), if_pos still, mul_one]
  · rw [if_pos still, if_neg still, Amplitude.divScalar_ofComplex _ (norm_ne_zero_iff.mpr still),
      Amplitude.ofComplex_mul]

theorem exists_unitary [Kernels] (finds : Kernels.FindsUnitary) (drawn : Kernels.HasFiniteGinibre)
    (n : ℕ) (seed : String) : ∃ U ∈ unitaryGroup (Fin n) ℂ,
      (unitary n seed : SquareMatrix Exact n) = .ofMatrix U := by
  obtain ⟨G, random⟩ := drawn n seed
  obtain ⟨Q, R, factors, orthonormal⟩ := finds G
  refine ⟨Q * phases R, mul_mem orthonormal (phases_mem_unitaryGroup R), ?_⟩
  have found : Numerics.unitaryFactors (Numerics.ginibre n seed : SquareMatrix Exact n) =
      (.ofMatrix Q, .ofMatrix R) := by
    rw [← factors, ← random]
    rfl
  rw [unitary, found]
  exact foldPhases_ofMatrix Q R

theorem take_unitary [Kernels] (finds : Kernels.FindsUnitary) (drawn : Kernels.HasFiniteGinibre)
    {q : ℕ} (M : Operator q) (seed : String) :
    take .unitary seed (.ofMatrix M) = finite √(purity M) := by
  obtain ⟨U, orthonormal, built⟩ := exists_unitary finds drawn (basisSize q) seed
  change ((unitary (basisSize q) seed).mul (.ofMatrix M)).frobeniusNorm = _
  rw [built, SquareMatrix.mul_ofMatrix, SquareMatrix.frobeniusNorm_ofMatrix]
  exact congrArg (fun x => finite √x) (purity_mul_left orthonormal)

/-! ## Column sums -/

/-- The sum of the moduli of a column. -/
noncomputable def columnSum (M : Matrix (Fin n) (Fin n) ℂ) (j : Fin n) : ℝ :=
  ∑ i, ‖M i j‖

theorem columnSum_nonneg (M : Matrix (Fin n) (Fin n) ℂ) (j : Fin n) : 0 ≤ columnSum M j :=
  Finset.sum_nonneg fun _ _ => norm_nonneg _

/-- The fingerprint is a column sum, and no other one exceeds it. -/
theorem exists_take_inducedNorm [Kernels] {q : ℕ} (M : Operator q) (seed : String) :
    ∃ w, take .inducedNorm seed (.ofMatrix M) = finite w ∧ (∀ j, columnSum M j ≤ w) ∧
      ∃ j, w = columnSum M j := by
  let sums := (List.finRange (basisSize q)).map (columnSum M)
  have column (acc : ℝ) (j : Fin (basisSize q)) : Scalar.max (finite acc)
      (Scalar.sum ((List.finRange _).map fun i => ((SquareMatrix.ofMatrix M).entry i j).norm)) =
      finite (max acc (columnSum M j)) := by
    have moduli : ((List.finRange _).map fun i => ((SquareMatrix.ofMatrix M).entry i j).norm) =
        ((List.finRange _).map fun i => ‖M i j‖).map finite := by
      simp
    rw [moduli, sum_finite, max_finite, ← List.ofFn_eq_map, List.sum_ofFn, columnSum]
  have folded : take .inducedNorm seed (.ofMatrix M) = finite (sums.foldl max 0) := by
    rw [List.foldl_map]
    change (List.finRange (basisSize q)).foldl _ (0 : Exact) = _
    rw [zero_eq]
    exact List.foldl_hom finite column
  have largest : (0 :: sums).max? = some (sums.foldl max 0) := List.max?_cons'
  obtain ⟨attained, above⟩ := List.max?_eq_some_iff.mp largest
  have bound (j : Fin (basisSize q)) : columnSum M j ≤ sums.foldl max 0 :=
    above _ (List.mem_cons_of_mem _ (List.mem_map_of_mem (List.mem_finRange j)))
  refine ⟨_, folded, bound, ?_⟩
  rcases List.mem_cons.mp attained with vanishes | inside
  · -- Then every column vanishes, the first one among them.
    let first : Fin (basisSize q) := ⟨0, basisSize_pos q⟩
    exact ⟨first, le_antisymm (vanishes.trans_le (columnSum_nonneg M first)) (bound first)⟩
  · obtain ⟨j, -, same⟩ := List.mem_map.mp inside
    exact ⟨j, same.symm⟩

/-- The purity by columns. -/
theorem purity_eq_sum_columns (M : Matrix (Fin n) (Fin n) ℂ) :
    purity M = ∑ j, ∑ i, ‖M i j‖ ^ 2 := by
  rw [purity, Finset.sum_comm]
  simp only [Complex.normSq_eq_norm_sq]

theorem sq_columnSum_le (M : Matrix (Fin n) (Fin n) ℂ) (j : Fin n) :
    columnSum M j ^ 2 ≤ n * purity M := by
  have spread := sq_sum_le_card_mul_sum_sq (s := Finset.univ) (f := fun i => ‖M i j‖)
  have column : ∑ i, ‖M i j‖ ^ 2 ≤ purity M := by
    rw [purity_eq_sum_columns]
    exact Finset.single_le_sum (f := fun k => ∑ i, ‖M i k‖ ^ 2)
      (fun k _ => Finset.sum_nonneg fun i _ => sq_nonneg ‖M i k‖) (Finset.mem_univ j)
  rw [Finset.card_univ, Fintype.card_fin] at spread
  exact spread.trans (mul_le_mul_of_nonneg_left column (Nat.cast_nonneg n))

theorem purity_le_sum_sq_columnSum (M : Matrix (Fin n) (Fin n) ℂ) :
    purity M ≤ ∑ j, columnSum M j ^ 2 := by
  rw [purity_eq_sum_columns]
  exact Finset.sum_le_sum fun j _ => Finset.sum_sq_le_sq_sum_of_nonneg fun i _ => norm_nonneg _

/-- A root of the dimension separates the two norms at most. -/
theorem sqrt_purity_bounds {M : Matrix (Fin n) (Fin n) ℂ} (some_row : 0 < n) {w : ℝ}
    (bound : ∀ j, columnSum M j ≤ w) (attained : ∃ j, w = columnSum M j) :
    √(purity M) / √n ≤ w ∧ w ≤ √(purity M) * √n := by
  have size : (0 : ℝ) < n := Nat.cast_pos.mpr some_row
  obtain ⟨j, rfl⟩ := attained
  have nonneg := columnSum_nonneg M j
  constructor
  · have total : purity M ≤ n * columnSum M j ^ 2 := by
      refine (purity_le_sum_sq_columnSum M).trans ?_
      have columns := Finset.sum_le_card_nsmul Finset.univ (fun k => columnSum M k ^ 2)
        (columnSum M j ^ 2) fun k _ => pow_le_pow_left₀ (columnSum_nonneg M k) (bound k) 2
      rwa [Finset.card_univ, Fintype.card_fin, nsmul_eq_mul] at columns
    rw [← Real.sqrt_div' _ size.le]
    exact Real.sqrt_le_iff.mpr ⟨nonneg, (div_le_iff₀' size).mpr total⟩
  · rw [← Real.sqrt_mul (purity_nonneg M), mul_comm]
    exact Real.le_sqrt_of_sq_le (sq_columnSum_le M j)

/-! ## States -/

section States

variable [Kernels] (finds : Kernels.FindsUnitary) (drawn : Kernels.HasFiniteGinibre) {q : ℕ}
  {M : Operator q}
include finds drawn

theorem exists_take_of_isState (state : IsState M) (seed : String) :
    ∃ f, take .unitary seed (.ofMatrix M) = finite f ∧ 1 / √(basisSize q : ℝ) ≤ f ∧ f ≤ 1 ∧
      (f = 1 ↔ ∃ v, M = projector v) := by
  refine ⟨_, take_unitary finds drawn M seed, ?_, ?_, ?_⟩
  · rw [← Real.sqrt_one, ← Real.sqrt_div zero_le_one]
    exact Real.sqrt_le_sqrt state.inv_le_purity
  · exact Real.sqrt_le_one.mpr state.purity_le_one
  · rw [Real.sqrt_eq_one]
    exact state.purity_eq_one_iff

theorem take_depolarize_le (state : IsState M) {p r : Exact} (le : Scalar.le p r = true)
    (seed seed' : String) : Scalar.le (take .unitary seed ((DensityMatrix.ofMatrix M).depolarize r))
      (take .unitary seed' ((DensityMatrix.ofMatrix M).depolarize p)) = true := by
  have mixed := state.purity_mixNoise_le (noiseLevel_mono le) r.noiseLevel_lt_one.le
  rw [DensityMatrix.depolarize_ofMatrix, DensityMatrix.depolarize_ofMatrix,
    take_unitary finds drawn, take_unitary finds drawn, finite_le, decide_eq_true_eq]
  exact Real.sqrt_le_sqrt mixed

end States

end Fingerprint

open Fingerprint

/-- What fingerprints measure, where every matrix has a unitary factor and the random matrix of every
seed has finite entries. The unitary fingerprint of a state is its Frobenius norm, for every seed.
For a physical state of dimension `d` it lies between `1 / √d` and one, it is one exactly for pure
states, and it does not grow with the noise, whatever the seeds are. The column sums of every state
give a fingerprint that differs from the unitary one by a factor of at most `√d`. -/
theorem fingerprints_measure_purity [Kernels] (finds : Kernels.FindsUnitary)
    (drawn : Kernels.HasFiniteGinibre) {q : ℕ} (M : Operator q) :
    let ρ := DensityMatrix.ofMatrix M
    let d : ℝ := ρ.dimension
    (∀ seed, take .unitary seed ρ = ρ.matrix.frobeniusNorm) ∧
    ρ.matrix.frobeniusNorm = finite √(∑ i, ∑ j, Complex.normSq (M i j)) ∧
    (IsState M →
      (∀ seed, ∃ f, take .unitary seed ρ = finite f ∧ 1 / √d ≤ f ∧ f ≤ 1 ∧
        (f = 1 ↔ ∃ v, M = projector v)) ∧
      ∀ p r : Exact, Scalar.le p r = true → ∀ seed seed',
        Scalar.le (take .unitary seed (ρ.depolarize r))
          (take .unitary seed' (ρ.depolarize p)) = true) ∧
    ∀ seed seed', ∃ f w, take .unitary seed ρ = finite f ∧
      take .inducedNorm seed' ρ = finite w ∧ f / √d ≤ w ∧ w ≤ f * √d := by
  intro ρ d
  have frobenius : ρ.matrix.frobeniusNorm = finite √(purity M) :=
    SquareMatrix.frobeniusNorm_ofMatrix M
  refine ⟨fun seed => ?_, frobenius, fun state => ⟨?_, fun p r le => ?_⟩, fun seed seed' => ?_⟩
  · rw [frobenius]
    exact take_unitary finds drawn M seed
  · exact exists_take_of_isState finds drawn state
  · exact take_depolarize_le finds drawn state le
  · obtain ⟨w, sums, bound, attained⟩ := exists_take_inducedNorm M seed'
    exact ⟨_, w, take_unitary finds drawn M seed, sums,
      sqrt_purity_bounds (basisSize_pos q) bound attained⟩

/-- Three entangled qubits: their fingerprint is one for the seed of a run without settings, and the
column sums are within a factor of `√8`. -/
theorem fingerprints_measure_purity_ghz :
    let _ : Kernels := .orthonormal
    let M := projector (DensityMatrix.ghzVector 3)
    let ρ := DensityMatrix.ofMatrix M
    Kernels.FindsUnitary ∧ Kernels.HasFiniteGinibre ∧ IsState M ∧
    take .unitary "deadbeef" ρ = finite 1 ∧
    Scalar.le (take .unitary "01" (ρ.depolarize (finite 7)))
      (take .unitary "deadbeef" (ρ.depolarize (finite (1 / 10)))) = true ∧
    ∃ w, take .inducedNorm "01" ρ = finite w ∧ 1 / √8 ≤ w ∧ w ≤ √8 := by
  intro orthonormal M ρ
  have finds : Kernels.FindsUnitary := Kernels.orthonormal_findsUnitary
  have drawn : Kernels.HasFiniteGinibre := Kernels.orthonormal_hasFiniteGinibre
  have state : IsState M := isState_ghz (q := 3) (by decide)
  have noisier : Scalar.le (finite (1 / 10)) (finite 7) = true := by
    rw [finite_le, decide_eq_true_eq]
    norm_num
  have size : (ρ.dimension : ℝ) = 8 := Nat.cast_ofNat
  obtain ⟨-, -, states, sums⟩ := fingerprints_measure_purity finds drawn M
  obtain ⟨bounds, noise⟩ := states state
  obtain ⟨f, taken, -, -, pure⟩ := bounds "deadbeef"
  have one : f = 1 := pure.mpr ⟨_, rfl⟩
  rw [one] at taken
  obtain ⟨f', w, taken', sum, lower, upper⟩ := sums "deadbeef" "01"
  have same : f' = 1 := finite.inj (taken'.symm.trans taken)
  rw [same, size] at lower upper
  rw [one_mul] at upper
  exact ⟨finds, drawn, state, taken, noise _ _ noisier _ _, w, sum, lower, upper⟩

end Nonlocal
