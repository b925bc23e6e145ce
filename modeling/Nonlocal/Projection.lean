import Nonlocal.Chaos.Vector

/-!
Views in space: the directions of measurement settings, and three named vectors of a chaos sample.
-/

namespace Nonlocal

/-- The names of the axes that a chaos sample is shown along. -/
inductive Axis where
  | spatial
  | temporal
  | entropy
  deriving DecidableEq

namespace Axis

/-- The axes in the order in which they are shown. -/
def all : List Axis := [.spatial, .temporal, .entropy]

/-- The name of an axis in records and reports. -/
def name : Axis → String
  | .spatial => "dim_spatial"
  | .temporal => "dim_temporal"
  | .entropy => "dim_entropy"

end Axis

/-- The vector along an axis, and its length. -/
structure AxisProjection (K : Type) where
  axis : Axis
  vector : Vec3 K
  norm : K

/-- The vectors of a chaos sample. -/
structure Projection (K : Type) where
  axes : List (AxisProjection K)

namespace Projection

variable {K : Type} [Scalar K]

/-- The Euclidean length of a vector. -/
def length (v : Vec3 K) : K :=
  Scalar.sqrt (v.x * v.x + v.y * v.y + v.z * v.z)

/-- The vector of a sample along an axis. -/
def vectorAlong (c : ChaosVector K) : Axis → Vec3 K
  | .spatial => c.lorenz
  | .temporal => ⟨c.lorenz.y, c.chua.z, c.logistic⟩
  | .entropy => ⟨c.logistic, c.chua.x, c.lorenz.z⟩

/-- The vectors of a sample along all axes. -/
def ofChaos (c : ChaosVector K) : Projection K :=
  ⟨Axis.all.map fun axis =>
    let v := vectorAlong c axis
    ⟨axis, v, length v⟩⟩

end Projection

/-- The projection along an axis, if there is one. -/
def Projection.get? {K : Type} (p : Projection K) (axis : Axis) : Option (AxisProjection K) :=
  p.axes.find? fun a => a.axis = axis

end Nonlocal
