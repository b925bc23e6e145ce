import Mathlib.Algebra.Order.Chebyshev
import Nonlocal.Proofs.Ciphertext.Spectrum

/-!
The digest of a ciphertext as a norm of its slots.

The digest is the sum of the moduli of the spectrum, `spectralNorm`. It inherits the laws of a norm
from the spectrum, which is linear and loses no slot; the squares of the spectrum compare it with
the Euclidean norm; and it does not see the phases by which rotated and reversed slots differ. Main
statement: `digest_is_spectral_norm`.
-/

namespace Nonlocal.Ciphertext

open Exact Amplitude

/-- The sum of the moduli of the spectrum. -/
noncomputable def spectralNorm (xs : List ℝ) : ℝ :=
  ∑ k ∈ Finset.range xs.length, ‖slotValue (unitRoot xs.length ^ k) xs‖

/-- The Euclidean norm of the slots. -/
noncomputable def euclideanNorm (xs : List ℝ) : ℝ :=
  √(xs.map (· ^ 2)).sum

theorem digest_finite (xs : List ℝ) : digest (xs.map finite) = finite (spectralNorm xs) := by
  have bins : ((List.range xs.length).map fun k => (spectralBin (xs.map finite) k).norm) =
      ((List.range xs.length).map fun k => ‖slotValue (unitRoot xs.length ^ k) xs‖).map finite := by
    rw [List.map_map]
    refine List.map_congr_left fun k inside => ?_
    have positive : xs.length ≠ 0 := Nat.ne_zero_of_lt (List.mem_range.mp inside)
    rw [spectralBin_eq positive rfl, norm_ofComplex]
    rfl
  rw [digest, List.length_map, bins, sum_finite]
  rfl

/-! ## A norm -/

theorem spectralNorm_smul (c : ℝ) (xs : List ℝ) :
    spectralNorm (xs.map (c * ·)) = |c| * spectralNorm xs := by
  simp_rw [spectralNorm, List.length_map, slotValue_smul, norm_mul, Complex.norm_real,
    Real.norm_eq_abs]
  rw [← Finset.mul_sum]

theorem spectralNorm_add_le {xs ys : List ℝ} (size : xs.length = ys.length) :
    spectralNorm (List.zipWith (· + ·) xs ys) ≤ spectralNorm xs + spectralNorm ys := by
  have total : (List.zipWith (· + ·) xs ys).length = ys.length := by
    rw [List.length_zipWith, size, min_self]
  rw [spectralNorm, spectralNorm, spectralNorm, total, size, ← Finset.sum_add_distrib]
  refine Finset.sum_le_sum fun k _ => ?_
  rw [slotValue_add size]
  exact norm_add_le _ _

/-! ## Comparison with the Euclidean norm -/

section Comparison

variable (xs : List ℝ)

theorem sum_squares_nonneg : 0 ≤ (xs.map (· ^ 2)).sum :=
  List.sum_nonneg (List.forall_mem_map.mpr fun x _ => sq_nonneg x)

/-- The squared moduli of the spectrum. -/
theorem sum_norm_sq :
    ∑ k ∈ Finset.range xs.length, ‖slotValue (unitRoot xs.length ^ k) xs‖ ^ 2 =
      xs.length * (xs.map (· ^ 2)).sum := by
  rcases eq_or_ne xs.length 0 with none | positive
  · rw [none, Finset.sum_range_zero, Nat.cast_zero, zero_mul]
  · rw [← sum_normSq_slotValue positive xs le_rfl]
    exact Finset.sum_congr rfl fun k _ => (Complex.normSq_eq_norm_sq _).symm

theorem spectralNorm_nonneg : 0 ≤ spectralNorm xs :=
  Finset.sum_nonneg fun _ _ => norm_nonneg _

theorem le_spectralNorm : √xs.length * euclideanNorm xs ≤ spectralNorm xs := by
  rw [euclideanNorm, ← Real.sqrt_mul (Nat.cast_nonneg _), ← sum_norm_sq]
  exact Real.sqrt_le_iff.mpr ⟨spectralNorm_nonneg xs,
    Finset.sum_sq_le_sq_sum_of_nonneg fun _ _ => norm_nonneg _⟩

theorem spectralNorm_le : spectralNorm xs ≤ xs.length * euclideanNorm xs := by
  have spread := sq_sum_le_card_mul_sum_sq (s := Finset.range xs.length)
    (f := fun k => ‖slotValue (unitRoot xs.length ^ k) xs‖)
  rw [Finset.card_range, sum_norm_sq, ← mul_assoc, ← sq] at spread
  have nonneg : 0 ≤ xs.length * euclideanNorm xs :=
    mul_nonneg (Nat.cast_nonneg _) (Real.sqrt_nonneg _)
  refine (sq_le_sq₀ (spectralNorm_nonneg xs) nonneg).mp ?_
  rwa [mul_pow, euclideanNorm, Real.sq_sqrt (sum_squares_nonneg xs)]

theorem sum_squares_eq_zero_iff : (xs.map (· ^ 2)).sum = 0 ↔ ∀ x ∈ xs, x = 0 := by
  induction xs with
  | nil => simp
  | cons x rest ih =>
    rw [List.map_cons, List.sum_cons, add_eq_zero_iff_of_nonneg (sq_nonneg x)
      (sum_squares_nonneg rest), ih, sq_eq_zero_iff, List.forall_mem_cons]

theorem euclideanNorm_eq_zero_iff : euclideanNorm xs = 0 ↔ ∀ x ∈ xs, x = 0 := by
  rw [euclideanNorm, Real.sqrt_eq_zero (sum_squares_nonneg xs), sum_squares_eq_zero_iff]

/-- The spectrum vanishes only if every slot does. -/
theorem spectralNorm_eq_zero_iff : spectralNorm xs = 0 ↔ ∀ x ∈ xs, x = 0 := by
  rw [← euclideanNorm_eq_zero_iff]
  refine ⟨fun vanishes => ?_, fun vanishes => ?_⟩
  · rcases xs with _ | ⟨x, rest⟩
    · exact Real.sqrt_zero
    · have size : 0 < √((x :: rest).length : ℝ) :=
        Real.sqrt_pos.mpr (Nat.cast_pos.mpr (Nat.succ_pos _))
      have bound := le_spectralNorm (x :: rest)
      rw [vanishes] at bound
      exact le_antisymm (nonpos_of_mul_nonpos_right bound size) (Real.sqrt_nonneg _)
  · have bound := spectralNorm_le xs
    rw [vanishes, mul_zero] at bound
    exact le_antisymm bound (spectralNorm_nonneg xs)

end Comparison

/-! ## Blind spots -/

theorem spectralNorm_rotate_one (xs : List ℝ) : spectralNorm (xs.rotate 1) = spectralNorm xs := by
  rw [spectralNorm, spectralNorm, List.length_rotate]
  refine Finset.sum_congr rfl fun k inside => ?_
  have positive : xs.length ≠ 0 := Nat.ne_zero_of_lt (Finset.mem_range.mp inside)
  exact norm_slotValue_rotate_one (norm_unitRoot_pow positive k)
    (unitRoot_pow_pow_eq_one positive k)

theorem spectralNorm_rotate (xs : List ℝ) (r : ℕ) :
    spectralNorm (xs.rotate r) = spectralNorm xs := by
  induction r with
  | zero => rw [List.rotate_zero]
  | succ r ih => rw [← List.rotate_rotate, spectralNorm_rotate_one, ih]

theorem spectralNorm_reverse (xs : List ℝ) : spectralNorm xs.reverse = spectralNorm xs := by
  rw [spectralNorm, spectralNorm, List.length_reverse]
  refine Finset.sum_congr rfl fun k inside => ?_
  have positive : xs.length ≠ 0 := Nat.ne_zero_of_lt (Finset.mem_range.mp inside)
  exact norm_slotValue_reverse (norm_unitRoot_pow positive k) xs

/-- The digest of real slots. It is the sum of the moduli of their discrete Fourier transform, and
it is a norm: it scales, obeys the triangle inequality, vanishes only for vanishing slots, and lies
between two multiples of the Euclidean norm. It does not tell slots apart that are rotated or in
the reverse order. -/
theorem digest_is_spectral_norm (scale : Exact) :
    let digestOf (xs : List ℝ) : Exact := (summarize (xs.map finite) scale).digest
    ∀ x : List ℝ,
      digestOf x = finite (∑ k ∈ Finset.range x.length, ‖∑ j : Fin x.length,
        x.get j * Complex.exp (-(2 * Real.pi * Complex.I * j * k / x.length))‖) ∧
      (∀ c : ℝ, digestOf (x.map (c * ·)) = finite |c| * digestOf x) ∧
      (∀ y : List ℝ, x.length = y.length →
        Scalar.le (digestOf (List.zipWith (· + ·) x y)) (digestOf x + digestOf y) = true) ∧
      (digestOf x = 0 ↔ ∀ slot ∈ x, slot = 0) ∧
      (Scalar.le (finite (√x.length * √(x.map (· ^ 2)).sum)) (digestOf x) = true ∧
        Scalar.le (digestOf x) (finite (x.length * √(x.map (· ^ 2)).sum)) = true) ∧
      (∀ r : ℕ, digestOf (x.rotate r) = digestOf x) ∧ digestOf x.reverse = digestOf x := by
  intro digestOf x
  have spectral (xs : List ℝ) : digestOf xs = finite (spectralNorm xs) := digest_finite xs
  simp only [spectral]
  refine ⟨?transform, fun c => ?scaled, fun y size => ?triangle, ?vanishing, ⟨?lower, ?upper⟩,
    fun r => ?rotated, ?reversed⟩
  case transform => simp_rw [spectralNorm, slotValue_eq_sum, unitRoot_pow_pow]
  case scaled => rw [spectralNorm_smul, finite_mul]
  case triangle =>
    rw [finite_add, finite_le]
    exact decide_eq_true (spectralNorm_add_le size)
  case vanishing => rw [Exact.zero_eq, finite.injEq, spectralNorm_eq_zero_iff]
  case lower =>
    rw [finite_le]
    exact decide_eq_true (le_spectralNorm x)
  case upper =>
    rw [finite_le]
    exact decide_eq_true (spectralNorm_le x)
  case rotated => rw [spectralNorm_rotate]
  case reversed => rw [spectralNorm_reverse]

/-- Four slots and four others: the digest of their sums, its bounds, and the slots turned by two
places, which have the digest of the slots themselves. -/
theorem digest_is_spectral_norm_four :
    let digestOf (xs : List ℝ) : Exact := (summarize (xs.map finite) .nan).digest
    ([1, 2, 3, 4] : List ℝ).length = ([4, -3, 2, -1] : List ℝ).length ∧
      Scalar.le (digestOf [5, -1, 5, 3]) (digestOf [1, 2, 3, 4] + digestOf [4, -3, 2, -1]) = true ∧
      Scalar.le (finite (2 * √30)) (digestOf [1, 2, 3, 4]) = true ∧
      Scalar.le (digestOf [1, 2, 3, 4]) (finite (4 * √30)) = true ∧
      digestOf [3, 4, 1, 2] = digestOf [1, 2, 3, 4] ∧
      digestOf [1, 2, 3, 4] ≠ 0 := by
  intro digestOf
  obtain ⟨-, -, triangle, vanishing, ⟨lower, upper⟩, rotated, -⟩ :=
    digest_is_spectral_norm .nan [1, 2, 3, 4]
  have sums : List.zipWith (· + ·) [1, 2, 3, 4] [4, -3, 2, -1] = [5, -1, 5, (3 : ℝ)] := by
    norm_num
  have squares : (([1, 2, 3, 4] : List ℝ).map (· ^ 2)).sum = 30 := by
    norm_num
  have root : √([1, 2, 3, (4 : ℝ)].length : ℝ) = 2 := by
    rw [Real.sqrt_eq_iff_mul_self_eq_of_pos two_pos]
    norm_num
  have bound := triangle [4, -3, 2, -1] rfl
  rw [sums] at bound
  rw [squares, root] at lower
  rw [squares] at upper
  have size : ([1, 2, 3, (4 : ℝ)].length : ℝ) = 4 := Nat.cast_ofNat
  rw [size] at upper
  refine ⟨rfl, bound, lower, upper, rotated 2, fun zero => ?_⟩
  exact one_ne_zero (vanishing.mp zero 1 (List.mem_cons_self ..))

end Nonlocal.Ciphertext
