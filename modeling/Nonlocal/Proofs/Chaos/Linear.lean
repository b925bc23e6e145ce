import Mathlib.LinearAlgebra.Matrix.Notation
import Mathlib.Tactic.Module
import Nonlocal.Proofs.Chaos.RealFlow

/-!
Linear flows.

Where a field multiplies every point with a matrix, a step of the Runge–Kutta scheme multiplies it
with the series of the exponential function up to the fourth power (`Field.IsLinearOn.realStep_eq`),
and an integration with a power of that (`Field.IsLinearOn.integrate_eq`). The field need not be
linear everywhere: a subspace that the matrix keeps is enough. Chua's oscillator is linear if both
slopes of its diode are the same, and the Lorenz system is linear on its third axis. Main statement:
`linear_flows`.
-/

namespace Nonlocal

open Exact Matrix

namespace Field

/-! ## Steps of linear fields -/

section Series

variable {A : Type*} [Ring A] [Algebra ℝ A]

/-- The series of the exponential function up to the fourth power. -/
noncomputable def truncatedExp (x : A) : A :=
  ∑ k ∈ Finset.range 5, (k.factorial : ℝ)⁻¹ • x ^ k

theorem truncatedExp_eq (x : A) : truncatedExp x =
    1 + x + (1 / 2 : ℝ) • x ^ 2 + (1 / 6 : ℝ) • x ^ 3 + (1 / 24 : ℝ) • x ^ 4 := by
  simp [truncatedExp, Finset.sum_range_succ, Nat.factorial]

theorem truncatedExp_algebraMap (c : ℝ) :
    truncatedExp (algebraMap ℝ A c) = algebraMap ℝ A (truncatedExp c) := by
  simp only [truncatedExp, map_sum, Algebra.smul_def, map_mul, map_pow, Algebra.algebraMap_self,
    RingHom.id_apply]

end Series

theorem algebraMap_mulVec (c : ℝ) (v : Fin 3 → ℝ) :
    (algebraMap ℝ (Matrix (Fin 3) (Fin 3) ℝ) c) *ᵥ v = c • v := by
  rw [Algebra.algebraMap_eq_smul_one, smul_mulVec, one_mulVec]

/-- On the subspace `S` the slopes `f` are those of the matrix `M`, which keeps the subspace. -/
structure IsLinearOn (f : (Fin 3 → ℝ) → Fin 3 → ℝ) (M : Matrix (Fin 3) (Fin 3) ℝ)
    (S : Submodule ℝ (Fin 3 → ℝ)) : Prop where
  slope : ∀ v ∈ S, f v = M *ᵥ v
  keeps : ∀ v ∈ S, M *ᵥ v ∈ S

namespace IsLinearOn

variable {f : (Fin 3 → ℝ) → Fin 3 → ℝ} {M : Matrix (Fin 3) (Fin 3) ℝ}
  {S : Submodule ℝ (Fin 3 → ℝ)} {v w : Fin 3 → ℝ}

/-- Slopes that are those of a matrix everywhere. -/
theorem of_slope (slope : ∀ v, f v = M *ᵥ v) : IsLinearOn f M ⊤ :=
  ⟨fun v _ => slope v, fun _ _ => Submodule.mem_top⟩

section Step

variable (linear : IsLinearOn f M S)
include linear

theorem slope_mem (inside : v ∈ S) : f v ∈ S := by
  rw [linear.slope v inside]
  exact linear.keeps v inside

/-- The point of the next stage. -/
theorem stage_mem (c : ℝ) (inside : v ∈ S) (before : w ∈ S) : v + c • f w ∈ S :=
  S.add_mem inside (S.smul_mem c (linear.slope_mem before))

theorem realStep_mem (h : ℝ) (inside : v ∈ S) : realStep f h v ∈ S := by
  have second := linear.stage_mem (h / 2) inside inside
  have third := linear.stage_mem (h / 2) inside second
  have fourth := linear.stage_mem h inside third
  have ends := S.add_mem (linear.slope_mem inside) (S.smul_mem 2 (linear.slope_mem second))
  have slopes := S.add_mem (S.add_mem ends (S.smul_mem 2 (linear.slope_mem third)))
    (linear.slope_mem fourth)
  exact S.add_mem inside (S.smul_mem (h / 6) slopes)

/-- A step multiplies the point with the series. -/
theorem realStep_eq (h : ℝ) (inside : v ∈ S) :
    realStep f h v = truncatedExp (h • M) *ᵥ v := by
  have second := linear.stage_mem (h / 2) inside inside
  have third := linear.stage_mem (h / 2) inside second
  have fourth := linear.stage_mem h inside third
  -- The stages are rewritten from the last one on: each contains those before it.
  rw [realStep, linear.slope _ fourth, linear.slope _ third, linear.slope _ second,
    linear.slope v inside]
  simp only [truncatedExp_eq, mulVec_add, mulVec_smul, add_mulVec, smul_mulVec, one_mulVec, pow_succ',
    pow_zero, mul_one, ← mulVec_mulVec]
  module

theorem iterate_realStep (h : ℝ) (n : ℕ) (inside : v ∈ S) :
    (realStep f h)^[n] v = truncatedExp (h • M) ^ n *ᵥ v ∧ (realStep f h)^[n] v ∈ S := by
  induction n with
  | zero => exact ⟨(one_mulVec v).symm, inside⟩
  | succ n ih =>
    obtain ⟨power, kept⟩ := ih
    rw [Function.iterate_succ_apply']
    refine ⟨?_, linear.realStep_mem h kept⟩
    rw [linear.realStep_eq h kept, power, mulVec_mulVec, ← pow_succ']

/-- A flow of a linear field multiplies the point with a power of the series. -/
theorem integrate_eq {field : Field Exact} (slopes : field.HasSlopes f) {span : TimeSpan Exact}
    {a b : ℝ} (start : span.start = finite a) (finish : span.finish = finite b) (inside : v ∈ S) :
    field.integrate span (.ofReal v) =
      .ofReal
        (truncatedExp (((b - a) / span.stepCount) • M) ^ span.stepCount *ᵥ v) := by
  rw [integrate_ofReal slopes start finish, (linear.iterate_realStep _ _ inside).1]

end Step

end IsLinearOn

/-! ## Linear systems -/

/-- The field that multiplies every point with real coordinates with a matrix. -/
noncomputable def ofMatrix (M : Matrix (Fin 3) (Fin 3) ℝ) : Field Exact := fun p =>
  .ofReal (M *ᵥ ![p.x.toReal, p.y.toReal, p.z.toReal])

theorem hasSlopes_ofMatrix (M : Matrix (Fin 3) (Fin 3) ℝ) : (ofMatrix M).HasSlopes (M *ᵥ ·) := by
  intro v
  have coordinates : ![v 0, v 1, v 2] = v := by
    ext i
    fin_cases i <;> rfl
  change Vec3.ofReal (M *ᵥ ![v 0, v 1, v 2]) = _
  rw [coordinates]

end Field

/-- The matrix of Chua's oscillator with the slope `m` on either side of the diode's kinks. -/
def Chua.matrix (alpha beta gamma m : ℝ) : Matrix (Fin 3) (Fin 3) ℝ :=
  !![-(alpha * (1 + m)), alpha, 0; 1, -1, 1; 0, -beta, -gamma]

/-- A diode of one slope is a resistor. -/
theorem Chua.realDiode_self (m x : ℝ) : Chua.realDiode m m x = m * x := by
  rw [realDiode, sub_self, mul_zero, zero_mul, add_zero]

theorem Chua.isLinearOn_top (alpha beta gamma m : ℝ) :
    Field.IsLinearOn (fun v => ![alpha * (v 1 - v 0 - Chua.realDiode m m (v 0)),
      v 0 - v 1 + v 2, -beta * v 1 - gamma * v 2]) (Chua.matrix alpha beta gamma m) ⊤ := by
  refine .of_slope fun v => ?_
  ext i
  fin_cases i <;>
    simp [Chua.matrix, Chua.realDiode_self, mulVec, dotProduct, Fin.sum_univ_three] <;> ring

namespace Lorenz

/-- The third axis. -/
def axis : Submodule ℝ (Fin 3 → ℝ) :=
  Submodule.span ℝ {![0, 0, 1]}

theorem mem_axis_iff {v : Fin 3 → ℝ} : v ∈ axis ↔ ∃ z : ℝ, ![0, 0, z] = v := by
  simp [axis, Submodule.mem_span_singleton]

/-- On the third axis the slopes are a multiple of the point. -/
theorem isLinearOn_axis (sigma rho beta : ℝ) :
    Field.IsLinearOn (fun v => ![sigma * (v 1 - v 0), v 0 * (rho - v 2) - v 1,
      v 0 * v 1 - beta * v 2]) (algebraMap ℝ _ (-beta)) axis where
  slope v inside := by
    obtain ⟨z, rfl⟩ := mem_axis_iff.mp inside
    rw [Field.algebraMap_mulVec]
    ext i
    fin_cases i <;> simp
  keeps v inside := by
    rw [Field.algebraMap_mulVec]
    exact axis.smul_mem _ inside

end Lorenz

/-- Integration of linear fields over a window with real ends, cut into `N` steps of length `h`. The
flow of a matrix multiplies a point with the `N`-th power of `R`, the series of the exponential
function up to the fourth power. So does Chua's flow if both slopes of the diode are the same, and
the Lorenz flow multiplies the third coordinate of a point of its third axis with the `N`-th power
of the series of `-beta * h`. -/
theorem linear_flows (start finish : ℝ) (samples substeps : UInt64) :
    let span : TimeSpan Exact := ⟨finite start, finite finish, samples, substeps⟩
    let N := span.stepCount
    let h := (finish - start) / N
    let R (A : Matrix (Fin 3) (Fin 3) ℝ) :=
      1 + A + (1 / 2 : ℝ) • A ^ 2 + (1 / 6 : ℝ) • A ^ 3 + (1 / 24 : ℝ) • A ^ 4
    (N ≠ 0 → span.stepSize = finite h) ∧
    (∀ (M : Matrix (Fin 3) (Fin 3) ℝ) (v : Fin 3 → ℝ),
      (Field.ofMatrix M).integrate span (.ofReal v) = .ofReal (R (h • M) ^ N *ᵥ v)) ∧
    (∀ (alpha beta gamma m : ℝ) (v : Fin 3 → ℝ),
      (Chua.field ⟨finite alpha, finite beta, finite gamma, finite m, finite m⟩).integrate span
          (.ofReal v) = .ofReal (R (h • Chua.matrix alpha beta gamma m) ^ N *ᵥ v)) ∧
    ∀ sigma rho beta z : ℝ,
      let a := beta * h
      (Lorenz.field ⟨finite sigma, finite rho, finite beta⟩).integrate span ⟨0, 0, finite z⟩ =
        ⟨0, 0, finite ((1 - a + a ^ 2 / 2 - a ^ 3 / 6 + a ^ 4 / 24) ^ N * z)⟩ := by
  intro span N h R
  have series (A : Matrix (Fin 3) (Fin 3) ℝ) : R A = Field.truncatedExp A :=
    (Field.truncatedExp_eq A).symm
  refine ⟨fun several => ?length, fun M v => ?matrix, fun alpha beta gamma m v => ?chua,
    fun sigma rho beta z => ?lorenz⟩
  case length =>
    rw [TimeSpan.stepSize, ofNat_eq, finite_sub, finite_div _ (Nat.cast_ne_zero.mpr several)]
  case matrix =>
    have linear : Field.IsLinearOn (M *ᵥ ·) M ⊤ := .of_slope fun _ => rfl
    rw [series]
    exact linear.integrate_eq (Field.hasSlopes_ofMatrix M) rfl rfl Submodule.mem_top
  case chua =>
    rw [series]
    exact (Chua.isLinearOn_top alpha beta gamma m).integrate_eq
      (Chua.hasSlopes alpha beta gamma m m) rfl rfl Submodule.mem_top
  case lorenz =>
    intro a
    have inside : ![0, 0, z] ∈ Lorenz.axis := Lorenz.mem_axis_iff.mpr ⟨z, rfl⟩
    have linear := Lorenz.isLinearOn_axis sigma rho beta
    have slopes := Lorenz.hasSlopes sigma rho beta
    have starts : span.start = finite start := rfl
    have flow := linear.integrate_eq slopes starts rfl inside
    have factor : Field.truncatedExp (h • algebraMap ℝ (Matrix (Fin 3) (Fin 3) ℝ) (-beta)) =
        algebraMap ℝ _ (1 - a + a ^ 2 / 2 - a ^ 3 / 6 + a ^ 4 / 24) := by
      rw [Algebra.smul_def, ← map_mul, Field.truncatedExp_algebraMap]
      congr 1
      simp only [Field.truncatedExp_eq, a, smul_eq_mul]
      ring
    rw [factor, ← map_pow, Field.algebraMap_mulVec] at flow
    rw [zero_eq]
    refine flow.trans ?_
    simp [Vec3.ofReal, N]

/-- Two steps over the unit window take a point that starts from rest with the acceleration one to
where it belongs: the third power of the matrix vanishes, and nothing is cut off. -/
theorem linear_flows_fall :
    let span : TimeSpan Exact := ⟨finite 0, finite 1, 3, 1⟩
    let fall : Matrix (Fin 3) (Fin 3) ℝ := !![0, 1, 0; 0, 0, 1; 0, 0, 0]
    span.stepCount = 2 ∧ span.stepSize = finite (1 / 2) ∧
      (Field.ofMatrix fall).integrate span (.ofReal ![0, 0, 1]) = .ofReal ![1 / 2, 1, 1] := by
  intro span fall
  have count : span.stepCount = 2 := by decide
  have flows := linear_flows 0 1 3 1
  dsimp only at flows
  rw [count] at flows
  obtain ⟨length, matrix, -⟩ := flows
  have shift (x v a : ℝ) : fall *ᵥ ![x, v, a] = ![v, a, 0] := by
    ext i
    fin_cases i <;> simp [fall, mulVec, dotProduct, Fin.sum_univ_three]
  have step (x v a : ℝ) : (1 + (1 / 2 : ℝ) • fall + (1 / 2 : ℝ) • ((1 / 2 : ℝ) • fall) ^ 2 +
      (1 / 6 : ℝ) • ((1 / 2 : ℝ) • fall) ^ 3 + (1 / 24 : ℝ) • ((1 / 2 : ℝ) • fall) ^ 4) *ᵥ
        ![x, v, a] = ![x + v / 2 + a / 8, v + a / 2, a] := by
    simp only [add_mulVec, smul_mulVec, one_mulVec, pow_succ', pow_zero, mul_one, ← mulVec_mulVec,
      mulVec_smul, shift]
    ext i
    fin_cases i <;> simp <;> ring
  have half : ((1 - 0) / (2 : ℕ) : ℝ) = 1 / 2 := by norm_num
  refine ⟨count, ?_, ?_⟩
  · rw [length (by decide), half]
  · rw [matrix, half, pow_two, ← mulVec_mulVec, step, step]
    norm_num

end Nonlocal
