import Nonlocal.Error
import Nonlocal.Setting

/-!
Chaotic flows and their integration.

A flow in space is integrated with the classical fourth-order Runge–Kutta scheme over a span of time
that is cut into equal steps. The order of the operations is fixed: the systems are chaotic, so a
different rounding leads to a different end.
-/

namespace Nonlocal

/-- A window of time: `samples` evenly spaced points, and `substeps` integration steps between each
two of them. -/
structure TimeSpan (K : Type) where
  start : K
  finish : K
  samples : UInt64
  substeps : UInt64

namespace TimeSpan

/-- The substeps of a span that does not name them. -/
def defaultSubsteps : UInt64 := 8

variable {K : Type} [Scalar K]

/-- The number of integration steps: one interval at least, one step in each. -/
def stepCount (span : TimeSpan K) : Nat :=
  Nat.max 1 (span.samples.toNat - 1) * Nat.max 1 span.substeps.toNat

omit [Scalar K] in
theorem one_le_stepCount (span : TimeSpan K) : 1 ≤ span.stepCount :=
  Nat.mul_pos (Nat.le_max_left 1 _) (Nat.le_max_left 1 _)

/-- Counts the steps in a 64-bit word. The product is not checked before it is taken, and one that
does not fit ends the program. -/
def countSteps (span : TimeSpan K) : Except Panic UInt64 :=
  if span.stepCount < UInt64.size then .ok (UInt64.ofNat span.stepCount) else .error .stepOverflow

/-- The length of one step. -/
def stepSize (span : TimeSpan K) : K :=
  (span.finish - span.start) / Scalar.ofNat span.stepCount

end TimeSpan

/-- A vector field in space. -/
abbrev Field (K : Type) := Vec3 K → Vec3 K

namespace Field

variable {K : Type} [Scalar K]

/-- Moves a point along a slope. -/
def advance (p slope : Vec3 K) (scale : K) : Vec3 K :=
  ⟨p.x + slope.x * scale, p.y + slope.y * scale, p.z + slope.z * scale⟩

/-- One step of length `h` of the classical Runge–Kutta scheme. -/
@[specialize]
def step (field : Field K) (h : K) (p : Vec3 K) : Vec3 K :=
  let k₁ := field p
  let k₂ := field (advance p k₁ (h / 2))
  let k₃ := field (advance p k₂ (h / 2))
  let k₄ := field (advance p k₃ h)
  let update (x a b c d : K) : K := x + h / 6 * (a + 2 * b + 2 * c + d)
  ⟨update p.x k₁.x k₂.x k₃.x k₄.x, update p.y k₁.y k₂.y k₃.y k₄.y,
    update p.z k₁.z k₂.z k₃.z k₄.z⟩

/-- Follows the field from a point over a span of time whose steps have been counted. -/
@[specialize]
def integrate (field : Field K) (span : TimeSpan K) (initial : Vec3 K) : Vec3 K :=
  let h := span.stepSize
  Nat.repeat (field.step h) span.stepCount initial

end Field

/-- The Lorenz system. -/
structure Lorenz (K : Type) where
  sigma : K
  rho : K
  beta : K

namespace Lorenz

variable {K : Type} [Scalar K]

/-- The usual parameters. -/
def standard : Lorenz K := ⟨10, 28, 8 / 3⟩

/-- `ẋ = σ (y - x)`, `ẏ = x (ρ - z) - y`, `ż = x y - β z`. -/
def field (s : Lorenz K) : Field K := fun p =>
  ⟨s.sigma * (p.y - p.x), p.x * (s.rho - p.z) - p.y, p.x * p.y - s.beta * p.z⟩

end Lorenz

/-- Chua's oscillator with a piecewise linear diode. -/
structure Chua (K : Type) where
  alpha : K
  beta : K
  gamma : K
  m0 : K
  m1 : K

namespace Chua

variable {K : Type} [Scalar K]

/-- The usual parameters. -/
def standard : Chua K :=
  ⟨Scalar.ofScientific 156 true 1, 28, Scalar.ofScientific 1 true 1,
    -Scalar.ofScientific 1143 true 3, -Scalar.ofScientific 714 true 3⟩

/-- The current through the diode: slope `m0` between `-1` and `1`, and `m1` outside. -/
def diode (s : Chua K) (x : K) : K :=
  s.m1 * x + 1 / 2 * (s.m0 - s.m1) * (Scalar.abs (x + 1) - Scalar.abs (x - 1))

/-- `ẋ = α (y - x - f x)`, `ẏ = x - y + z`, `ż = -β y - γ z`. -/
def field (s : Chua K) : Field K := fun p =>
  ⟨s.alpha * (p.y - p.x - s.diode p.x), p.x - p.y + p.z, -s.beta * p.y - s.gamma * p.z⟩

end Chua

end Nonlocal
