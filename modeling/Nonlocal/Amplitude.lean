import Nonlocal.Scalar

/-!
Probability amplitudes: complex numbers over the scalars of a simulation.
-/

namespace Nonlocal

/-- A complex number in Cartesian form. -/
structure Amplitude (K : Type) where
  re : K
  im : K

namespace Amplitude

variable {K : Type} [Scalar K]

/-- A real number as an amplitude. -/
def ofScalar (x : K) : Amplitude K := ⟨x, 0⟩

/-- The amplitude at distance `r` from zero and angle `φ` from the real axis. -/
def polar (r φ : K) : Amplitude K := ⟨r * Scalar.cos φ, r * Scalar.sin φ⟩

instance : Zero (Amplitude K) := ⟨⟨0, 0⟩⟩

instance : Add (Amplitude K) := ⟨fun z w => ⟨z.re + w.re, z.im + w.im⟩⟩

instance : Sub (Amplitude K) := ⟨fun z w => ⟨z.re - w.re, z.im - w.im⟩⟩

instance : Mul (Amplitude K) :=
  ⟨fun z w => ⟨z.re * w.re - z.im * w.im, z.re * w.im + z.im * w.re⟩⟩

/-- The complex conjugate. -/
def conj (z : Amplitude K) : Amplitude K := ⟨z.re, -z.im⟩

/-- The squared modulus. -/
def normSq (z : Amplitude K) : K := z.re * z.re + z.im * z.im

/-- The modulus. -/
def norm (z : Amplitude K) : K := Scalar.hypot z.re z.im

/-- Both parts divided by a real number. -/
def divScalar (z : Amplitude K) (x : K) : Amplitude K := ⟨z.re / x, z.im / x⟩

instance : Div (Amplitude K) := ⟨fun z w => (z * w.conj).divScalar w.normSq⟩

/-- Sum of a list, from the left. -/
def sum (zs : List (Amplitude K)) : Amplitude K :=
  zs.foldl (· + ·) 0

end Amplitude

end Nonlocal
