import Mathlib.RingTheory.RootsOfUnity.Complex
import Nonlocal.Ciphertext
import Nonlocal.Proofs.Exact.Matrix

/-!
The discrete Fourier spectrum of a list of real slots.

A list is read as the coefficients of a polynomial, the first one constant. The bins of its spectrum
are the values of the polynomial at the roots of unity (`spectralBin_eq`), and what the spectrum
keeps of the list follows the list: a rotation and a reversal change each value by a phase
(`mul_slotValue_rotate_one`, `mul_slotValue_reverse`), and the squares of the values make up the
squares of the slots (`sum_normSq_slotValue`).
-/

namespace Nonlocal.Ciphertext

open Exact Amplitude

/-- The value at `z` of the polynomial with the given coefficients, the constant one first. -/
noncomputable def slotValue (z : ℂ) : List ℝ → ℂ
  | [] => 0
  | x :: rest => x + z * slotValue z rest

section Values

variable {z : ℂ}

theorem slotValue_smul (c : ℝ) (xs : List ℝ) :
    slotValue z (xs.map (c * ·)) = c * slotValue z xs := by
  induction xs with
  | nil => exact (mul_zero _).symm
  | cons x rest ih =>
    rw [List.map_cons, slotValue, slotValue, ih]
    push_cast
    ring

theorem slotValue_add {xs ys : List ℝ} (size : xs.length = ys.length) :
    slotValue z (List.zipWith (· + ·) xs ys) = slotValue z xs + slotValue z ys := by
  induction xs generalizing ys with
  | nil =>
    rw [List.eq_nil_of_length_eq_zero size.symm]
    exact (add_zero _).symm
  | cons x rest ih =>
    rcases ys with _ | ⟨y, others⟩
    · cases size
    · rw [List.zipWith_cons_cons, slotValue, slotValue, slotValue, ih (Nat.succ.inj size)]
      push_cast
      ring

theorem slotValue_append (xs ys : List ℝ) :
    slotValue z (xs ++ ys) = slotValue z xs + z ^ xs.length * slotValue z ys := by
  induction xs with
  | nil => simp [slotValue]
  | cons x rest ih =>
    rw [List.cons_append, slotValue, slotValue, ih, List.length_cons]
    ring

/-- The value as a sum over the slots with their positions. -/
theorem sum_zipIdx (z : ℂ) (xs : List ℝ) (start : ℕ) :
    ((xs.zipIdx start).map fun (x, j) => (x : ℂ) * z ^ j).sum = z ^ start * slotValue z xs := by
  induction xs generalizing start with
  | nil => exact (mul_zero _).symm
  | cons x rest ih =>
    rw [List.zipIdx_cons, List.map_cons, List.sum_cons, ih, slotValue]
    ring

theorem slotValue_eq_sum (z : ℂ) (xs : List ℝ) :
    slotValue z xs = ∑ j : Fin xs.length, xs.get j * z ^ j.val := by
  induction xs with
  | nil => rfl
  | cons x rest ih =>
    refine Eq.trans ?_ (Fin.sum_univ_succ _).symm
    rw [slotValue, ih, Finset.mul_sum]
    congr 1
    · simp
    · exact Finset.sum_congr rfl fun j _ => by simp [pow_succ]; ring

/-- A rotation by one place takes a factor `z` out of the value. -/
theorem mul_slotValue_rotate_one {xs : List ℝ} (period : z ^ xs.length = 1) :
    z * slotValue z (xs.rotate 1) = slotValue z xs := by
  cases xs with
  | nil => exact mul_zero z
  | cons x rest =>
    rw [List.length_cons, pow_succ] at period
    rw [List.rotate_cons_succ, List.rotate_zero, slotValue_append, slotValue, slotValue, slotValue]
    linear_combination (x : ℂ) * period

/-- On the unit circle the reversed list has the conjugate value, up to a phase. -/
theorem mul_slotValue_reverse (unit : z * star z = 1) (xs : List ℝ) :
    z * slotValue z xs.reverse = z ^ xs.length * star (slotValue z xs) := by
  induction xs with
  | nil => simp [slotValue]
  | cons x rest ih =>
    have real : star (x : ℂ) = x := Complex.conj_ofReal x
    rw [List.reverse_cons, slotValue_append, List.length_reverse, mul_add, ih, slotValue, slotValue,
      slotValue, star_add, star_mul', real, List.length_cons, pow_succ]
    linear_combination (-(z ^ rest.length * star (slotValue z rest))) * unit

theorem norm_slotValue_rotate_one (unit : ‖z‖ = 1) {xs : List ℝ} (period : z ^ xs.length = 1) :
    ‖slotValue z (xs.rotate 1)‖ = ‖slotValue z xs‖ := by
  rw [← mul_slotValue_rotate_one period, norm_mul, unit, one_mul]

theorem norm_slotValue_reverse (unit : ‖z‖ = 1) (xs : List ℝ) :
    ‖slotValue z xs.reverse‖ = ‖slotValue z xs‖ := by
  have inverse : z * star z = 1 := by
    rw [Complex.star_def, Complex.mul_conj, Complex.normSq_eq_norm_sq, unit, one_pow,
      Complex.ofReal_one]
  have moduli := congrArg (‖·‖) (mul_slotValue_reverse inverse xs)
  rwa [norm_mul, norm_mul, norm_pow, unit, one_pow, one_mul, one_mul, norm_star] at moduli

end Values

/-! ## Roots of unity -/

/-- The root of unity `exp (-2πi / n)`. -/
noncomputable def unitRoot (n : ℕ) : ℂ :=
  (Complex.exp (2 * Real.pi * Complex.I / n))⁻¹

theorem unitRoot_pow_pow (n k j : ℕ) :
    (unitRoot n ^ k) ^ j = Complex.exp (-(2 * Real.pi * Complex.I * j * k / n)) := by
  rw [unitRoot, ← Complex.exp_neg, ← Complex.exp_nat_mul, ← Complex.exp_nat_mul]
  congr 1
  ring

section Roots

variable {n : ℕ} (positive : n ≠ 0)
include positive

theorem isPrimitiveRoot_unitRoot : IsPrimitiveRoot (unitRoot n) n :=
  (Complex.isPrimitiveRoot_exp n positive).inv

theorem norm_unitRoot_pow (k : ℕ) : ‖unitRoot n ^ k‖ = 1 := by
  rw [norm_pow, (isPrimitiveRoot_unitRoot positive).norm'_eq_one positive, one_pow]

theorem normSq_unitRoot_pow (k : ℕ) : Complex.normSq (unitRoot n ^ k) = 1 := by
  rw [Complex.normSq_eq_norm_sq, norm_unitRoot_pow positive, one_pow]

theorem unitRoot_pow_pow_eq_one (k : ℕ) : (unitRoot n ^ k) ^ n = 1 := by
  rw [pow_right_comm, (isPrimitiveRoot_unitRoot positive).pow_eq_one, one_pow]

/-- The powers of the roots of unity cancel, unless the exponent is a multiple of their number. -/
theorem sum_unitRoot_pow {m : ℕ} (first : 1 ≤ m) (last : m < n) :
    ∑ k ∈ Finset.range n, (unitRoot n ^ k) ^ m = 0 := by
  have primitive := isPrimitiveRoot_unitRoot positive
  have moves : unitRoot n ^ m ≠ 1 := primitive.pow_ne_one_of_pos_of_lt (by omega) last
  have closed : (unitRoot n ^ m) ^ n = 1 := unitRoot_pow_pow_eq_one positive m
  have total := mul_geom_sum (unitRoot n ^ m) n
  rw [closed, sub_self] at total
  simp_rw [pow_right_comm _ _ m]
  exact (mul_eq_zero.mp total).resolve_left (sub_ne_zero.mpr moves)

theorem twiddle_eq (m : ℕ) : (twiddle n m : Amplitude Exact) = ofComplex (unitRoot n ^ m) := by
  have real : (n : ℝ) ≠ 0 := Nat.cast_ne_zero.mpr positive
  have reduced : unitRoot n ^ m = unitRoot n ^ (m % n) :=
    pow_eq_pow_mod m (isPrimitiveRoot_unitRoot positive).pow_eq_one
  have angle : (2 * Scalar.pi * Scalar.ofNat (m % n) / Scalar.ofNat n : Exact) =
      finite (2 * Real.pi * (m % n : ℕ) / n) := by
    rw [two_eq]
    exact finite_div _ real
  rw [twiddle, angle, one_eq, neg_finite, polar_finite, reduced, unitRoot, ← Complex.exp_neg,
    ← Complex.exp_nat_mul]
  congr 1
  push_cast
  rw [one_mul]
  congr 1
  ring

/-- The bins of the spectrum are the values at the roots of unity. -/
theorem spectralBin_eq {xs : List ℝ} (size : xs.length = n) (k : ℕ) :
    spectralBin (xs.map finite) k = ofComplex (slotValue (unitRoot n ^ k) xs) := by
  have entries : ∀ (acc : Amplitude Exact) (x : ℝ) (j : ℕ),
      acc + ⟨finite x * (twiddle n (j * k)).re, finite x * (twiddle n (j * k)).im⟩ =
        acc + ofComplex (x * (unitRoot n ^ k) ^ j) := by
    intro acc x j
    rw [twiddle_eq positive, ← pow_mul, mul_comm j k, ofComplex, ofComplex, finite_mul, finite_mul,
      Complex.re_ofReal_mul, Complex.im_ofReal_mul]
  rw [spectralBin, List.length_map, size, List.zipIdx_map, List.foldl_map, Amplitude.zero_eq]
  simp only [Prod.map_fst, Prod.map_snd, id_eq, entries]
  rw [foldl_ofComplex fun p : ℝ × ℕ => (p.1 : ℂ) * (unitRoot n ^ k) ^ p.2, zero_add,
    sum_zipIdx _ xs 0, pow_zero, one_mul]

/-! ## The energy of a spectrum -/

/-- A polynomial without a constant term vanishes on average over the roots of unity, as long as its
degree is less than their number. -/
theorem sum_pow_mul_slotValue (xs : List ℝ) {m : ℕ} (first : 1 ≤ m) (last : m + xs.length ≤ n) :
    ∑ k ∈ Finset.range n, (unitRoot n ^ k) ^ m * slotValue (unitRoot n ^ k) xs = 0 := by
  induction xs generalizing m with
  | nil => simp [slotValue]
  | cons x rest ih =>
    rw [List.length_cons] at last
    have constant := sum_unitRoot_pow positive first (by omega)
    have others := ih (m := m + 1) (by omega) (by omega)
    have split (k : ℕ) : (unitRoot n ^ k) ^ m * slotValue (unitRoot n ^ k) (x :: rest) =
        x * (unitRoot n ^ k) ^ m +
          (unitRoot n ^ k) ^ (m + 1) * slotValue (unitRoot n ^ k) rest := by
      rw [slotValue]
      ring
    simp_rw [split]
    rw [Finset.sum_add_distrib, ← Finset.mul_sum, constant, others, mul_zero, add_zero]

/-- The squared moduli of the spectrum add up to those of the slots, once for each bin. -/
theorem sum_normSq_slotValue (xs : List ℝ) (size : xs.length ≤ n) :
    ∑ k ∈ Finset.range n, Complex.normSq (slotValue (unitRoot n ^ k) xs) =
      n * (xs.map (· ^ 2)).sum := by
  induction xs with
  | nil => simp [slotValue]
  | cons x rest ih =>
    rw [List.length_cons] at size
    have mixed := sum_pow_mul_slotValue positive rest le_rfl (by omega)
    have square (k : ℕ) : Complex.normSq (slotValue (unitRoot n ^ k) (x :: rest)) =
        x ^ 2 + Complex.normSq (slotValue (unitRoot n ^ k) rest) +
          2 * x * ((unitRoot n ^ k) ^ 1 * slotValue (unitRoot n ^ k) rest).re := by
      rw [slotValue, Complex.normSq_add, Complex.normSq_mul, Complex.normSq_ofReal,
        normSq_unitRoot_pow positive, Complex.re_ofReal_mul, Complex.conj_re, pow_one]
      ring
    simp_rw [square]
    rw [Finset.sum_add_distrib, Finset.sum_add_distrib, ← Finset.mul_sum, ← Complex.re_sum, mixed,
      ih (by omega), Finset.sum_const, Finset.card_range, List.map_cons, List.sum_cons,
      nsmul_eq_mul, Complex.zero_re]
    ring

end Roots

end Nonlocal.Ciphertext
