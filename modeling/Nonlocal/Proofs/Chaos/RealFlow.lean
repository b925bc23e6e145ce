import Mathlib.Data.Fin.VecNotation
import Nonlocal.Chaos.Attractor
import Nonlocal.Proofs.Exact.Number

/-!
Flows at points with real coordinates.

A field whose slopes at real points are real is integrated within the real points: over exact
numbers every step is the Runge–Kutta step over the real numbers (`Field.step_ofReal`), and the
whole integration repeats it (`Field.integrate_ofReal`). The Lorenz system and Chua's oscillator are
such fields if their parameters are real.
-/

namespace Nonlocal

open Exact

/-- A point with real coordinates. -/
def Vec3.ofReal (v : Fin 3 → ℝ) : Vec3 Exact :=
  ⟨finite (v 0), finite (v 1), finite (v 2)⟩

namespace Field

/-- At points with real coordinates the field has the slopes `f`. -/
def HasSlopes (field : Field Exact) (f : (Fin 3 → ℝ) → Fin 3 → ℝ) : Prop :=
  ∀ v, field (.ofReal v) = .ofReal (f v)

/-- One step of the classical Runge–Kutta scheme over the real numbers. -/
noncomputable def realStep (f : (Fin 3 → ℝ) → Fin 3 → ℝ) (h : ℝ) (v : Fin 3 → ℝ) : Fin 3 → ℝ :=
  let k₁ := f v
  let k₂ := f (v + (h / 2) • k₁)
  let k₃ := f (v + (h / 2) • k₂)
  let k₄ := f (v + h • k₃)
  v + (h / 6) • (k₁ + (2 : ℝ) • k₂ + (2 : ℝ) • k₃ + k₄)

theorem advance_ofReal (v k : Fin 3 → ℝ) (c : ℝ) :
    advance (.ofReal v) (.ofReal k) (finite c) = .ofReal (v + c • k) := by
  simp [advance, Vec3.ofReal, mul_comm c]

variable {field : Field Exact} {f : (Fin 3 → ℝ) → Fin 3 → ℝ}

theorem step_ofReal (slopes : field.HasSlopes f) (h : ℝ) (v : Fin 3 → ℝ) :
    field.step (finite h) (.ofReal v) = .ofReal (realStep f h v) := by
  have six : (6 : Exact) = finite 6 := congrArg finite Nat.cast_ofNat
  have sixth : finite h / finite 6 = finite (h / 6) := finite_div h (by norm_num)
  simp only [step, two_eq, half_finite, six, sixth, slopes _, advance_ofReal]
  rfl

theorem repeat_step_ofReal (slopes : field.HasSlopes f) (h : ℝ) (n : ℕ) (v : Fin 3 → ℝ) :
    Nat.repeat (field.step (finite h)) n (.ofReal v) = .ofReal ((realStep f h)^[n] v) := by
  induction n with
  | zero => rfl
  | succ n ih =>
    rw [Function.iterate_succ_apply', ← step_ofReal slopes, ← ih]
    rfl

/-- A flow with real slopes over a window with real ends leads from real points to real points. -/
theorem integrate_ofReal (slopes : field.HasSlopes f) {span : TimeSpan Exact} {a b : ℝ}
    (start : span.start = finite a) (finish : span.finish = finite b) (v : Fin 3 → ℝ) :
    field.integrate span (.ofReal v) =
      .ofReal ((realStep f ((b - a) / span.stepCount))^[span.stepCount] v) := by
  have positive : (span.stepCount : ℝ) ≠ 0 :=
    Nat.cast_ne_zero.mpr (Nat.one_le_iff_ne_zero.mp span.one_le_stepCount)
  rw [integrate, TimeSpan.stepSize, start, finish, finite_sub, ofNat_eq, finite_div _ positive,
    repeat_step_ofReal slopes]

end Field

theorem Lorenz.hasSlopes (sigma rho beta : ℝ) :
    (Lorenz.field ⟨finite sigma, finite rho, finite beta⟩).HasSlopes fun v =>
      ![sigma * (v 1 - v 0), v 0 * (rho - v 2) - v 1, v 0 * v 1 - beta * v 2] := by
  intro v
  simp [Lorenz.field, Vec3.ofReal]

/-- The current through the diode for real parameters. -/
noncomputable def Chua.realDiode (m0 m1 x : ℝ) : ℝ :=
  m1 * x + 1 / 2 * (m0 - m1) * (|x + 1| - |x - 1|)

theorem Chua.hasSlopes (alpha beta gamma m0 m1 : ℝ) :
    (Chua.field ⟨finite alpha, finite beta, finite gamma, finite m0, finite m1⟩).HasSlopes fun v =>
      ![alpha * (v 1 - v 0 - Chua.realDiode m0 m1 (v 0)), v 0 - v 1 + v 2,
        -beta * v 1 - gamma * v 2] := by
  intro v
  simp [Chua.field, Chua.diode, Chua.realDiode, Vec3.ofReal]

end Nonlocal
