import Nonlocal.SquareMatrix

/-!
Measurement settings of one qubit: a direction on the Bloch sphere, the point of the unit sphere it
names, and the observable that is measured along it.
-/

namespace Nonlocal

/-- A point of space, and the state of a three-dimensional dynamical system. -/
structure Vec3 (K : Type) where
  x : K
  y : K
  z : K

/-- The coordinates in order. -/
def Vec3.toList {K : Type} (v : Vec3 K) : List K := [v.x, v.y, v.z]

/-- Polar and azimuthal angle of a measurement direction. -/
structure Setting (K : Type) where
  theta : K
  phi : K

namespace Setting

variable {K : Type} [Scalar K]

/-- The direction at angle `theta` in the plane of the X and Z axes. -/
def planar (theta : K) : Setting K := ⟨theta, 0⟩

/-- Are both angles finite? -/
def isFinite (s : Setting K) : Bool :=
  Scalar.isFinite s.theta && Scalar.isFinite s.phi

/-- The unit vector `(sin θ cos φ, sin θ sin φ, cos θ)`. -/
def direction (s : Setting K) : Vec3 K :=
  ⟨Scalar.sin s.theta * Scalar.cos s.phi, Scalar.sin s.theta * Scalar.sin s.phi,
    Scalar.cos s.theta⟩

/-- The observable `cos θ · Z + sin θ · (cos φ · X + sin φ · Y)`, entry by entry. -/
def observable (s : Setting K) : SquareMatrix K 2 :=
  SquareMatrix.ofFn fun i j =>
    match i, j with
    | 0, 0 => Amplitude.ofScalar (Scalar.cos s.theta)
    | 0, 1 => Amplitude.polar (Scalar.sin s.theta) (-s.phi)
    | 1, 0 => Amplitude.polar (Scalar.sin s.theta) s.phi
    | 1, 1 => Amplitude.ofScalar (-Scalar.cos s.theta)

/-- The `+1` eigenvector `cos (θ/2) |0⟩ + e^{iφ} sin (θ/2) |1⟩` of the observable. -/
def eigenket (s : Setting K) (i : Fin 2) : Amplitude K :=
  match i with
  | 0 => Amplitude.ofScalar (Scalar.cos (s.theta / 2))
  | 1 => Amplitude.polar (Scalar.sin (s.theta / 2)) s.phi

end Setting

end Nonlocal
