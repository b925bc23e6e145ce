import Nonlocal.Amplitude

/-!
Square matrices of amplitudes, stored by rows.

A matrix is built from the function that gives its entries and is read back entry by entry;
`entry_ofFn` says that the two agree, and everything else is defined through them.
-/

namespace Nonlocal

/-- An `n × n` matrix of amplitudes. -/
structure SquareMatrix (K : Type) (n : Nat) where
  rows : Vector (Vector (Amplitude K) n) n

namespace SquareMatrix

variable {K : Type} {n : Nat}

/-- The matrix with the given entries. -/
def ofFn (f : Fin n → Fin n → Amplitude K) : SquareMatrix K n :=
  ⟨Vector.ofFn fun i => Vector.ofFn fun j => f i j⟩

/-- The entry in row `i` and column `j`. -/
def entry (m : SquareMatrix K n) (i j : Fin n) : Amplitude K :=
  (m.rows[i])[j]

@[simp] theorem entry_ofFn (f : Fin n → Fin n → Amplitude K) (i j : Fin n) :
    (ofFn f).entry i j = f i j := by
  simp [ofFn, entry]

/-- Matrices with the same entries are equal. -/
theorem ext_entry {a b : SquareMatrix K n} (h : ∀ i j, a.entry i j = b.entry i j) : a = b := by
  obtain ⟨a⟩ := a
  obtain ⟨b⟩ := b
  congr 1
  ext i hi j hj
  exact h ⟨i, hi⟩ ⟨j, hj⟩

/-- Applies a function to every entry. -/
def map (f : Amplitude K → Amplitude K) (m : SquareMatrix K n) : SquareMatrix K n :=
  ⟨m.rows.map fun row => row.map f⟩

@[simp] theorem entry_map (f : Amplitude K → Amplitude K) (m : SquareMatrix K n) (i j : Fin n) :
    (m.map f).entry i j = f (m.entry i j) := by
  simp [map, entry]

/-- The matrix with rows and columns exchanged. -/
def transpose (m : SquareMatrix K n) : SquareMatrix K n :=
  ofFn fun i j => m.entry j i

variable [Scalar K]

/-- The diagonal, from the top. -/
def diagonal (m : SquareMatrix K n) : List (Amplitude K) :=
  (List.finRange n).map fun i => m.entry i i

/-- All entries, row by row. -/
def entries (m : SquareMatrix K n) : List (Amplitude K) :=
  m.rows.toList.flatMap fun row => row.toList

/-- Sum of the diagonal. -/
def trace (m : SquareMatrix K n) : Amplitude K :=
  Amplitude.sum m.diagonal

/-- Adds `f` over a list to a sum. -/
def addOver {α : Type} (acc : Amplitude K) (xs : List α) (f : α → Amplitude K) : Amplitude K :=
  xs.foldl (fun acc x => acc + f x) acc

/-- Sum of `f` over a list. -/
def sumOver {α : Type} (xs : List α) (f : α → Amplitude K) : Amplitude K :=
  addOver 0 xs f

/-- The trace of the product of two matrices, without the product. The summands are taken in one
sum, column by column. -/
def traceMul (a b : SquareMatrix K n) : Amplitude K :=
  (List.finRange n).foldl
    (fun acc j => addOver acc (List.finRange n) fun i => a.entry i j * b.entry j i) 0

/-- The square root of the sum of all squared moduli. -/
def frobeniusNorm (m : SquareMatrix K n) : K :=
  Scalar.sqrt (m.rows.foldl (fun acc row => row.foldl (fun acc z => acc + z.normSq) acc) 0)

/-- The matrix product. -/
def mul (a b : SquareMatrix K n) : SquareMatrix K n :=
  let indices := List.finRange n
  let columns := b.transpose.rows
  ofFn fun i j => sumOver indices fun k => (a.rows[i])[k] * (columns[j])[k]

/-- How far a matrix is from its conjugate transpose, in the Frobenius norm. -/
def asymmetry (m : SquareMatrix K n) : K :=
  frobeniusNorm (ofFn fun i j => m.entry i j - (m.entry j i).conj)

/-- The largest column sum of moduli. -/
def maxColumnSum (m : SquareMatrix K n) : K :=
  (List.finRange n).foldl (fun acc j =>
    Scalar.max acc (Scalar.sum ((List.finRange n).map fun i => (m.entry i j).norm))) 0

end SquareMatrix

end Nonlocal
