import Nonlocal.SquareMatrix

/-!
A unitary factor of a matrix: its columns made orthonormal one after another.

Each column loses its components along the columns before it and is then normalized; what is taken
away is the upper triangular factor.
-/

namespace Nonlocal.Unitary

variable {K : Type} [Scalar K] {n : Nat}

/-- A column of a matrix. -/
abbrev Column (K : Type) (n : Nat) := Vector (Amplitude K) n

/-- The inner product of two columns, conjugate in the first. -/
def inner (u v : Column K n) : Amplitude K :=
  (List.finRange n).foldl (fun acc i => acc + (u.get i).conj * v.get i) 0

/-- Takes the components along orthonormal columns out of a column; the components are returned in
the order of the columns. -/
def project (basis : List (Column K n)) (v : Column K n) : List (Amplitude K) × Column K n :=
  basis.foldl (fun (components, v) u =>
    let z := inner u v
    (components ++ [z], Vector.zipWith (fun x y => x - z * y) v u)) ([], v)

/-- A column divided by its length, and the length. -/
def normalize (v : Column K n) : K × Column K n :=
  let norm := Scalar.sqrt (v.foldl (fun acc z => acc + z.normSq) 0)
  (norm, v.map fun z => z.divScalar norm)

/-- Adds a column to an orthonormal system and to the triangular factor. -/
def extend (acc : List (Column K n) × List (List (Amplitude K))) (v : Column K n) :
    List (Column K n) × List (List (Amplitude K)) :=
  let (components, rest) := project acc.1 v
  let (norm, unit) := normalize rest
  (acc.1 ++ [unit], acc.2 ++ [components ++ [Amplitude.ofScalar norm]])

/-- The unitary and the upper triangular factor of a matrix. -/
def factors (m : SquareMatrix K n) : SquareMatrix K n × SquareMatrix K n :=
  let columns := (List.finRange n).map fun j => Vector.ofFn fun i => m.entry i j
  let (basis, triangle) := columns.foldl extend ([], [])
  let basis := (basis.map fun v => v.toArray).toArray
  let triangle := (triangle.map List.toArray).toArray
  let at? (a : Array (Array (Amplitude K))) (j i : Nat) : Amplitude K :=
    ((a[j]?).bind (·[i]?)).getD 0
  (SquareMatrix.ofFn fun i j => at? basis j i, SquareMatrix.ofFn fun i j => at? triangle j i)

end Nonlocal.Unitary
