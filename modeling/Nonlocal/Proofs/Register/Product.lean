import Nonlocal.Proofs.Register.Correlation
import Nonlocal.Proofs.Register.Physical

/-!
Correlators of product states.

A qubit that was prepared along one direction and is measured along another has the inner product of
the two unit vectors as its expectation value (`trace_eigenprojector_mul_matrix`). In a product
state the first qubit can be taken out of state and observable alike (`correlation_kron`), so that
the correlator of a term is the product of these numbers over the qubits that it measures
(`productState_values`).
-/

namespace Nonlocal

open Matrix Exact Term DensityMatrix

section Directions

variable {K : Type} [Scalar K]

/-- The inner product of two points of space. -/
def Vec3.dot (v w : Vec3 K) : K :=
  v.x * w.x + v.y * w.y + v.z * w.z

/-- The inner products of the directions of preparation and of measurement, one for each qubit that
is measured. -/
def alignments (prepared : List (Setting K)) (factors : List (Option (Setting K))) : List K :=
  (prepared.zip factors).filterMap fun (s, f) => f.map fun t => s.direction.dot t.direction

end Directions

/-! ## One qubit -/

/-- The cosine of the angle between two directions. -/
noncomputable def cosineBetween (s t : Setting Exact) : ℝ :=
  Real.sin s.theta.toReal * Real.sin t.theta.toReal * Real.cos (s.phi.toReal - t.phi.toReal) +
    Real.cos s.theta.toReal * Real.cos t.theta.toReal

theorem dot_direction {s t : Setting Exact} (hs : s.isFinite = true) (ht : t.isFinite = true) :
    s.direction.dot t.direction = finite (cosineBetween s t) := by
  rw [cosineBetween, Real.cos_sub]
  generalize hθ : s.theta.toReal = θ
  generalize hφ : s.phi.toReal = φ
  generalize hθ' : t.theta.toReal = θ'
  generalize hφ' : t.phi.toReal = φ'
  rw [Setting.eq_of_isFinite hs, Setting.eq_of_isFinite ht, hθ, hφ, hθ', hφ']
  simp only [Vec3.dot, Setting.direction, sin_finite, cos_finite, finite_mul, finite_add]
  congr 1
  ring

theorem star_phase_mul_phase_add (s t : Setting Exact) :
    star s.phase * t.phase + s.phase * star t.phase =
      (2 * Real.cos (s.phi.toReal - t.phi.toReal) : ℝ) := by
  have conjugate : s.phase * star t.phase = star (star s.phase * t.phase) := by
    rw [star_mul', star_star]
  have turned : star s.phase * t.phase =
      Complex.exp ((t.phi.toReal - s.phi.toReal : ℝ) * Complex.I) := by
    rw [Setting.star_phase, Setting.phase, ← Complex.exp_add, ← add_mul]
    push_cast
    ring_nf
  rw [conjugate, turned, Complex.star_def, Complex.add_conj, Complex.exp_ofReal_mul_I_re,
    ← Real.cos_neg, neg_sub]

/-- The state of a qubit along a direction, by the observable along that direction. -/
theorem eigenprojector_eq (s : Setting Exact) :
    eigenprojector s = (1 / 2 : ℂ) • (1 + s.matrix) := by
  have phases := s.star_phase_mul_phase
  have unit := Real.sin_sq_add_cos_sq (s.theta.toReal / 2)
  have double : s.theta.toReal = 2 * (s.theta.toReal / 2) := by ring
  have sin_double := congrArg Real.sin double
  have cos_double := congrArg Real.cos double
  rw [Real.sin_two_mul] at sin_double
  rw [Real.cos_two_mul'] at cos_double
  -- Only the angle halves in the state, so the observable is written with the half angle as well.
  rw [eigenprojector, eigenvector, Setting.matrix, sin_double, cos_double]
  generalize Real.sin (s.theta.toReal / 2) = x at unit
  generalize Real.cos (s.theta.toReal / 2) = z at unit
  have unit' : (x : ℂ) ^ 2 + (z : ℂ) ^ 2 = 1 := by exact_mod_cast unit
  ext i j
  fin_cases i <;> fin_cases j <;> simp [vecMulVec_apply] at phases ⊢
  · linear_combination unit' / 2
  · ring
  · ring
  · linear_combination x ^ 2 * phases + unit' / 2

theorem trace_matrix_mul_matrix (s t : Setting Exact) :
    (s.matrix * t.matrix).trace = (2 * cosineBetween s t : ℝ) := by
  have phases := star_phase_mul_phase_add s t
  rw [cosineBetween, Setting.matrix, Setting.matrix, mul_fin_two, trace_fin_two]
  simp only [of_apply, cons_val_zero, cons_val_one]
  push_cast at phases ⊢
  linear_combination (Complex.sin s.theta.toReal * Complex.sin t.theta.toReal) * phases

/-- The expectation value of one qubit. -/
theorem trace_eigenprojector_mul_matrix (s t : Setting Exact) :
    (eigenprojector s * t.matrix).trace = (cosineBetween s t : ℂ) := by
  rw [eigenprojector_eq, Matrix.smul_mul, Matrix.add_mul, Matrix.one_mul, trace_smul, trace_add,
    t.trace_matrix, trace_matrix_mul_matrix, smul_eq_mul]
  push_cast
  ring

/-! ## All qubits -/

section Factors

variable {settings : List (Setting Exact)} {factors : List (Option (Setting Exact))}

theorem correlation_productVector_nil : correlation (projector (productVector [])) [] = 1 := by
  have whole := (isState_product []).trace_eq
  rw [← Matrix.mul_one (projector _)] at whole
  exact (@correlation_eq [] _).trans (congrArg Complex.re whole)

theorem correlation_productVector_none (s : Setting Exact)
    (size : factors.length = settings.length) :
    correlation (projector (productVector (s :: settings))) (none :: factors) =
      correlation (projector (productVector settings)) factors := by
  have untouched : (eigenprojector s * factorMatrix none).trace = ((1 : ℝ) : ℂ) := by
    rw [factorMatrix, Matrix.mul_one, trace_eigenprojector, Complex.ofReal_one]
  have split := correlation_kron (projector (productVector settings)) size untouched
  rw [one_mul, ← projector_productVector] at split
  exact split

theorem correlation_productVector_some (s t : Setting Exact)
    (size : factors.length = settings.length) :
    correlation (projector (productVector (s :: settings))) (some t :: factors) =
      cosineBetween s t * correlation (projector (productVector settings)) factors := by
  have measured : (eigenprojector s * factorMatrix (some t)).trace = (cosineBetween s t : ℂ) :=
    trace_eigenprojector_mul_matrix s t
  have split := correlation_kron (projector (productVector settings)) size measured
  rw [← projector_productVector] at split
  exact split

/-- The correlator of a product state, qubit by qubit. -/
theorem correlation_productVector (prepared : ∀ s ∈ settings, s.isFinite = true)
    (measured : AnglesFinite factors) (size : factors.length = settings.length) :
    finite (correlation (projector (productVector settings)) factors) =
      (alignments settings factors).foldr (· * ·) 1 := by
  induction settings generalizing factors with
  | nil =>
    obtain rfl := List.length_eq_zero_iff.mp size
    rw [correlation_productVector_nil, ← one_eq]
    rfl
  | cons s settings ih =>
    rcases factors with _ | ⟨f, factors⟩
    · cases size
    · obtain ⟨first, others⟩ := List.forall_mem_cons.mp prepared
      have size' : factors.length = settings.length := Nat.succ.inj size
      have rest := ih others (fun t inside => measured t (List.mem_cons_of_mem f inside)) size'
      rcases f with _ | t
      · rw [correlation_productVector_none s size']
        exact rest
      · have second := measured t List.mem_cons_self
        rw [correlation_productVector_some s t size', ← finite_mul, rest,
          ← dot_direction first second]
        rfl

end Factors

theorem exists_product {settings : List (Setting Exact)} (pos : 1 ≤ settings.length)
    (le : settings.length ≤ maxQubits) :
    ∃ ρ, product settings = .ok ρ := by
  have nonempty : settings.isEmpty = false := by
    rw [List.isEmpty_eq_false_iff]
    exact List.length_pos_iff.mp pos
  exact ⟨_, by rw [product, nonempty, decide_eq_false (not_lt.mpr le)]; rfl⟩

/-- Preparation, measurement and projection agree. One to ten settings with finite angles have a
product state. On it every term with as many factors has a value: the product of the inner products
of the directions of preparation and of measurement, over the qubits that the term measures. The
sign of the term does not enter, and a term that measures nothing has the value one. -/
theorem productState_values {settings : List (Setting Exact)} (pos : 1 ≤ settings.length)
    (bounded : settings.length ≤ 10) (prepared : ∀ s ∈ settings, s.isFinite = true)
    {terms : List (Term Exact)}
    (measured : ∀ t ∈ terms, t.qubits = settings.length ∧ AnglesFinite t.factors) :
    ∃ ρ c, product settings = .ok ρ ∧ Correlators.evaluate ρ terms = .ok c ∧
      c.values = terms.map fun t => (alignments settings t.factors).foldr (· * ·) 1 := by
  obtain ⟨ρ, accepted⟩ := exists_product pos bounded
  obtain ⟨rfl, -, -⟩ := product_eq prepared accepted
  have values := Correlators.valuesFrom_ofMatrix (projector (productVector settings)) measured 0
  refine ⟨_, _, accepted, by rw [Correlators.evaluate, values]; rfl, ?_⟩
  refine List.map_congr_left fun t member => ?_
  obtain ⟨size, angles⟩ := measured t member
  exact correlation_productVector prepared angles size

/-- Two qubits along the axes X and Z. Measured along X, the first one is certain and the second one
is not. -/
theorem productState_values_axes :
    let x : Setting Exact := ⟨finite (Real.pi / 2), finite 0⟩
    let z : Setting Exact := ⟨finite 0, finite 0⟩
    let terms : List (Term Exact) := [⟨[some x, none], 1⟩, ⟨[none, some x], -1⟩, ⟨[none, none], 1⟩]
    (∀ s ∈ [x, z], s.isFinite = true) ∧
      (∀ t ∈ terms, t.qubits = [x, z].length ∧ AnglesFinite t.factors) ∧
      ∃ ρ c, product [x, z] = .ok ρ ∧ Correlators.evaluate ρ terms = .ok c ∧
        c.values = [finite 1, finite 0, finite 1] := by
  intro x z terms
  have finite_x : x.isFinite = true := rfl
  have prepared : ∀ s ∈ [x, z], s.isFinite = true :=
    List.forall_mem_cons.mpr ⟨finite_x, List.forall_mem_singleton.mpr rfl⟩
  have measured : ∀ t ∈ terms, t.qubits = [x, z].length ∧ AnglesFinite t.factors := by
    simp [terms, AnglesFinite, Term.qubits, finite_x]
  have along : x.direction.dot x.direction = finite 1 := by
    simp [dot_direction finite_x finite_x, cosineBetween, x]
  have across : z.direction.dot x.direction = finite 0 := by
    simp [dot_direction (s := z) rfl finite_x, cosineBetween, x, z]
  obtain ⟨ρ, c, accepted, evaluated, values⟩ :=
    productState_values (by decide) (by decide) prepared measured
  refine ⟨prepared, measured, ρ, c, accepted, evaluated, ?_⟩
  simp [values, terms, alignments, along, across]

end Nonlocal
