import Mathlib.Analysis.Matrix.Order
import Mathlib.LinearAlgebra.Matrix.Kronecker
import Nonlocal.Proofs.Exact.Number

/-!
Amplitudes and matrices over exact numbers, as complex numbers and complex matrices.

`Amplitude.ofComplex` and `SquareMatrix.ofMatrix` carry every operation of the simulator to the
operation of the same name; after this module nobody looks at real and imaginary parts.
-/

namespace Nonlocal

open Exact

namespace Amplitude

/-- A complex number as an exact amplitude. -/
def ofComplex (z : ℂ) : Amplitude Exact := ⟨finite z.re, finite z.im⟩

@[simp] theorem re_ofComplex (z : ℂ) : (ofComplex z).re = finite z.re := rfl

theorem ofComplex_injective : Function.Injective ofComplex := by
  intro z w same
  injection same with re im
  exact Complex.ext (finite.inj re) (finite.inj im)

@[simp] theorem zero_eq : (0 : Amplitude Exact) = ofComplex 0 :=
  congrArg (fun x => Amplitude.mk x x) Exact.zero_eq

@[simp] theorem ofScalar_finite (x : ℝ) : ofScalar (finite x) = ofComplex x :=
  congrArg (Amplitude.mk (finite x)) Exact.zero_eq

@[simp] theorem ofComplex_add (z w : ℂ) : ofComplex z + ofComplex w = ofComplex (z + w) := rfl

@[simp] theorem ofComplex_sub (z w : ℂ) : ofComplex z - ofComplex w = ofComplex (z - w) := by
  change Amplitude.mk (finite _ - finite _) (finite _ - finite _) = _
  rw [finite_sub, finite_sub]
  rfl

@[simp] theorem ofComplex_mul (z w : ℂ) : ofComplex z * ofComplex w = ofComplex (z * w) := by
  change Amplitude.mk (finite _ * finite _ - finite _ * finite _) _ = _
  rw [finite_mul, finite_mul, finite_sub]
  rfl

@[simp] theorem conj_ofComplex (z : ℂ) : (ofComplex z).conj = ofComplex (star z) := rfl

theorem polar_finite (r φ : ℝ) :
    polar (finite r) (finite φ) = ofComplex (r * Complex.exp (φ * Complex.I)) := by
  simp [polar, ofComplex, Complex.exp_ofReal_mul_I_re, Complex.exp_ofReal_mul_I_im]

@[simp] theorem normSq_ofComplex (z : ℂ) : (ofComplex z).normSq = finite (Complex.normSq z) := rfl

@[simp] theorem norm_ofComplex (z : ℂ) : (ofComplex z).norm = finite ‖z‖ := by
  rw [Complex.norm_def, Complex.normSq_apply]
  rfl

theorem divScalar_ofComplex (z : ℂ) {x : ℝ} (h : x ≠ 0) :
    (ofComplex z).divScalar (finite x) = ofComplex (z / x) := by
  simp [divScalar, ofComplex, finite_div _ h]

/-- The quotient of amplitudes is the complex one, for a divisor that is not zero. -/
theorem ofComplex_div (z : ℂ) {w : ℂ} (h : w ≠ 0) :
    ofComplex z / ofComplex w = ofComplex (z / w) := by
  change ((ofComplex z * (ofComplex w).conj).divScalar (ofComplex w).normSq) = _
  rw [conj_ofComplex, ofComplex_mul, normSq_ofComplex,
    divScalar_ofComplex _ (Complex.normSq_pos.mpr h).ne', div_eq_mul_inv z w, Complex.inv_def,
    ← mul_assoc, div_eq_mul_inv, Complex.ofReal_inv]
  rfl

theorem foldl_ofComplex {α : Type} (f : α → ℂ) (xs : List α) (acc : ℂ) :
    xs.foldl (fun acc x => acc + ofComplex (f x)) (ofComplex acc) =
      ofComplex (acc + (xs.map f).sum) := by
  induction xs generalizing acc with
  | nil => simp
  | cons x xs ih => simp [ih, add_assoc]

end Amplitude

namespace SquareMatrix

open Amplitude

variable {n : ℕ}

/-- A complex matrix as a matrix of exact amplitudes. -/
def ofMatrix (M : Matrix (Fin n) (Fin n) ℂ) : SquareMatrix Exact n :=
  ofFn fun i j => ofComplex (M i j)

@[simp] theorem entry_ofMatrix (M : Matrix (Fin n) (Fin n) ℂ) (i j : Fin n) :
    (ofMatrix M).entry i j = ofComplex (M i j) :=
  entry_ofFn _ i j

theorem ofMatrix_injective : Function.Injective (ofMatrix (n := n)) := by
  intro A B same
  ext i j
  have entry := congrArg (fun m => m.entry i j) same
  simp only [entry_ofMatrix] at entry
  exact ofComplex_injective entry

theorem map_ofMatrix {f : Amplitude Exact → Amplitude Exact} {g : ℂ → ℂ}
    (h : ∀ z, f (ofComplex z) = ofComplex (g z)) (M : Matrix (Fin n) (Fin n) ℂ) :
    (ofMatrix M).map f = ofMatrix (M.map g) :=
  ext_entry fun i j => by simp [h]

theorem addOver_ofComplex (acc : ℂ) (f : Fin n → ℂ) :
    addOver (ofComplex acc) (List.finRange n) (fun i => ofComplex (f i)) =
      ofComplex (acc + ∑ i, f i) := by
  rw [addOver, foldl_ofComplex, ← List.ofFn_eq_map, List.sum_ofFn]

theorem sumOver_ofComplex (f : Fin n → ℂ) :
    sumOver (List.finRange n) (fun i => ofComplex (f i)) = ofComplex (∑ i, f i) := by
  rw [sumOver, Amplitude.zero_eq, addOver_ofComplex, zero_add]

/-- A fold that adds up the columns of an array, one after another. -/
theorem foldl_addOver (f : Fin n → Fin n → ℂ) (columns : List (Fin n)) (acc : ℂ) :
    columns.foldl (fun acc j => addOver acc (List.finRange n) fun i => ofComplex (f i j))
      (ofComplex acc) = ofComplex (acc + (columns.map fun j => ∑ i, f i j).sum) := by
  induction columns generalizing acc with
  | nil => rw [List.foldl_nil, List.map_nil, List.sum_nil, add_zero]
  | cons j rest ih =>
    rw [List.foldl_cons, addOver_ofComplex, ih, List.map_cons, List.sum_cons, add_assoc]

/-- The simulator's shortcut computes the trace of the product. -/
theorem traceMul_ofMatrix (A B : Matrix (Fin n) (Fin n) ℂ) :
    traceMul (ofMatrix A) (ofMatrix B) = ofComplex (A * B).trace := by
  simp only [traceMul, entry_ofMatrix, ofComplex_mul, Amplitude.zero_eq]
  rw [foldl_addOver (fun i j => A i j * B j i), zero_add, ← List.ofFn_eq_map, List.sum_ofFn,
    Finset.sum_comm]
  rfl

theorem mul_ofMatrix (A B : Matrix (Fin n) (Fin n) ℂ) :
    (ofMatrix A).mul (ofMatrix B) = ofMatrix (A * B) := by
  apply ext_entry
  intro i j
  rw [mul, entry_ofFn]
  change sumOver (List.finRange n) (fun k => (ofMatrix A).entry i k *
    (ofMatrix B).transpose.entry j k) = _
  simp only [transpose, entry_ofFn, entry_ofMatrix, ofComplex_mul, sumOver_ofComplex]
  rfl

theorem trace_ofMatrix (M : Matrix (Fin n) (Fin n) ℂ) :
    (ofMatrix M).trace = ofComplex M.trace := by
  rw [trace, diagonal, Amplitude.sum, List.foldl_map]
  simp only [entry_ofMatrix]
  exact sumOver_ofComplex fun i => M i i

/-- A fold over a vector that is given by its entries. -/
theorem foldl_ofFn {α : Type} {g : Exact → α → Exact} {f : Fin n → ℝ} {v : Fin n → α}
    (h : ∀ acc i, g (finite acc) (v i) = finite (acc + f i)) (acc : ℝ) :
    (Vector.ofFn v).foldl g (finite acc) = finite (acc + ∑ i, f i) := by
  rw [← Vector.foldl_toList, Vector.toList_ofFn, List.ofFn_eq_map, List.foldl_map,
    foldl_finite h, ← List.ofFn_eq_map, List.sum_ofFn]

theorem frobeniusNorm_ofMatrix (M : Matrix (Fin n) (Fin n) ℂ) :
    frobeniusNorm (ofMatrix M) = finite √(∑ i, ∑ j, Complex.normSq (M i j)) := by
  have row (acc : ℝ) (i : Fin n) :=
    foldl_ofFn (g := fun acc (z : Amplitude Exact) => acc + z.normSq)
      (fun acc j => congrArg (finite acc + ·) (normSq_ofComplex (M i j))) acc
  have total := foldl_ofFn row 0
  have nonneg : 0 ≤ ∑ i, ∑ j, Complex.normSq (M i j) :=
    Finset.sum_nonneg fun i _ => Finset.sum_nonneg fun j _ => Complex.normSq_nonneg _
  rw [zero_add] at total
  rw [frobeniusNorm, ofMatrix, ofFn, Exact.zero_eq, total, sqrt_finite nonneg]

/-- A matrix that is its own conjugate transpose shows no asymmetry. -/
theorem asymmetry_ofMatrix {M : Matrix (Fin n) (Fin n) ℂ} (h : M.IsHermitian) :
    (ofMatrix M).asymmetry = finite 0 := by
  have vanishes : (ofFn fun i j => (ofMatrix M).entry i j - ((ofMatrix M).entry j i).conj) =
      ofMatrix 0 := by
    apply ext_entry
    intro i j
    rw [entry_ofFn, entry_ofMatrix, entry_ofMatrix, entry_ofMatrix, conj_ofComplex, h.apply i j,
      ofComplex_sub, sub_self, Matrix.zero_apply]
  rw [asymmetry, vanishes, frobeniusNorm_ofMatrix]
  simp

end SquareMatrix

end Nonlocal
