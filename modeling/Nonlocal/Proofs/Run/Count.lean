import Nonlocal.Proofs.Binary64.Equality
import Nonlocal.Proofs.Binary64.Functions

/-!
What an estimate counts.

An estimate is the excess of one outcome over the other, in a whole number of shots of which a whole
number had the first outcome (`Sampler.isCount_counted`). An expectation value at an end of the
physical range, or beyond it, leaves no doubt about the outcome: its probability is one or zero
without an error of rounding (`HasExactEnds`), and every shot has the same outcome.
-/

namespace Nonlocal

/-- Numbers in which the ends of the physical range are exact: an expectation value at an end, or
beyond it, has a probability of exactly one or exactly zero, and no other number compares as equal
to an end. -/
class HasExactEnds (K : Type) [Scalar K] : Prop where
  certain {e : K} : Scalar.le 1 e = true →
    Scalar.eq (Sampler.probability e) 0 = false ∧ Scalar.eq (Sampler.probability e) 1 = true
  impossible {e : K} : Scalar.le e (-1) = true → Scalar.eq (Sampler.probability e) 0 = true
  unit {s : K} : (Scalar.eq s 1 || Scalar.eq s (-1)) = true → s = 1 ∨ s = -1

namespace Sampler

variable {K : Type} [Numerics K]

/-- Sampling `e` from the generator counts `k` shots with the outcome `+1`. The probability is
valid, the count does not exceed the shots, the estimate is the excess that belongs to the count,
and at the ends of the physical range the count is complete or zero. -/
structure IsCount (e : K) (shots : UInt64) (g : Generator) (k : Nat) : Prop where
  nonneg : Scalar.le 0 (probability e) = true
  le_one : Scalar.le (probability e) 1 = true
  le_shots : k ≤ Nat.max 1 shots.toNat
  run : ∃ g', (sample e shots).run g = (.ok (excess k (Nat.max 1 shots.toNat)), g')
  certain : Scalar.le 1 e = true → k = Nat.max 1 shots.toNat
  impossible : Scalar.le e (-1) = true → k = 0

theorem isCount_counted [HasProbabilities K] [HasCounts K] [HasExactEnds K] (e : K)
    (shots : UInt64) (g : Generator) :
    IsCount e shots g (counted (Nat.max 1 shots.toNat) (probability e) g).1 where
  nonneg := (HasProbabilities.bounds e).1
  le_one := (HasProbabilities.bounds e).2
  le_shots := counted_le _ _ g
  run := ⟨_, (yields_sample (isValid e) shots).run g⟩
  certain beyond := by
    rcases HasExactEnds.certain beyond with ⟨possible, sure⟩
    have drawn : count? (Nat.max 1 shots.toNat) (probability e) g =
        some (Nat.max 1 shots.toNat, g) := by
      rw [count?, if_neg (Bool.eq_false_iff.mp possible), if_pos sure]
    rw [counted_of_count? drawn (Nat.le_refl _)]
  impossible beyond := by
    have drawn : count? (Nat.max 1 shots.toNat) (probability e) g = some (0, g) := by
      rw [count?, if_pos (HasExactEnds.impossible beyond)]
    rw [counted_of_count? drawn (Nat.zero_le _)]

/-! ## Exact numbers -/

/-- The excess of one outcome over the other as an exact number, if `k` of `n` shots had it. -/
noncomputable def ratio (k n : ℕ) : ℝ :=
  (2 * k - n) / n

theorem abs_ratio_le_one {k n : ℕ} (le : k ≤ n) (pos : 0 < n) : |ratio k n| ≤ 1 := by
  have total : (0 : ℝ) < n := Nat.cast_pos.mpr pos
  have below : (k : ℝ) ≤ n := Nat.cast_le.mpr le
  have above : (0 : ℝ) ≤ k := Nat.cast_nonneg k
  rw [ratio, abs_div, abs_of_pos total, div_le_one total, abs_le]
  constructor
  · linarith
  · linarith

theorem ratio_self {n : ℕ} (pos : 0 < n) : ratio n n = 1 := by
  have total : (n : ℝ) ≠ 0 := Nat.cast_ne_zero.mpr pos.ne'
  rw [ratio, two_mul, add_sub_cancel_right, div_self total]

theorem ratio_zero {n : ℕ} (pos : 0 < n) : ratio 0 n = -1 := by
  have total : (n : ℝ) ≠ 0 := Nat.cast_ne_zero.mpr pos.ne'
  rw [ratio, Nat.cast_zero, mul_zero, zero_sub, neg_div, div_self total]

/-- Read as an exact number an estimate lies between minus one and one, and at the ends of the
physical range it is the end itself. -/
theorem IsCount.ratio_bounds {e : K} {shots : UInt64} {g : Generator} {k : ℕ}
    (count : IsCount e shots g k) :
    |ratio k (Nat.max 1 shots.toNat)| ≤ 1 ∧
      (Scalar.le 1 e = true → ratio k (Nat.max 1 shots.toNat) = 1) ∧
      (Scalar.le e (-1) = true → ratio k (Nat.max 1 shots.toNat) = -1) := by
  have pos : 0 < Nat.max 1 shots.toNat := Nat.le_max_left 1 _
  refine ⟨abs_ratio_le_one count.le_shots pos, fun beyond => ?_, fun beyond => ?_⟩
  · rw [count.certain beyond, ratio_self pos]
  · rw [count.impossible beyond, ratio_zero pos]

section ExactCounts

open Exact

theorem excess_finite {k n : ℕ} (le : k ≤ n) (pos : 0 < n) :
    (excess k n : Exact) = finite (ratio k n) := by
  have total : (n : ℝ) ≠ 0 := Nat.cast_ne_zero.mpr pos.ne'
  rw [excess, ofNat_eq, ofNat_eq, ofNat_eq, finite_sub, finite_div _ total, Nat.cast_sub le, ratio]
  congr 2
  ring

instance : HasExactEnds Exact where
  certain {e} beyond := by
    rw [one_eq] at beyond
    rw [probability_eq, clamped_of_le neg_one_lt_zero.le zero_le_one beyond, zero_eq, one_eq]
    norm_num
  impossible {e} beyond := by
    rw [one_eq, neg_finite] at beyond
    rw [probability_eq, clamped_of_ge neg_one_lt_zero.le zero_le_one beyond, zero_eq]
    norm_num
  unit {s} same := by
    rcases Bool.or_eq_true_iff.mp same with plus | minus
    · rcases HasEquality.eq_or_zero plus with equal | ⟨-, zero⟩
      · exact .inl equal
      · simp at zero
    · rcases HasEquality.eq_or_zero minus with equal | ⟨-, zero⟩
      · exact .inr equal
      · simp at zero

end ExactCounts

end Sampler

/-! ## Doubles -/

namespace Binary64

open Float.Model Float.Model.UnpackedFloat

/-- A double that is not below one which it does not exceed compares as equal to it. -/
theorem eq_of_le_of_not_lt {x y : Float} (le : Scalar.le x y = true)
    (not_lt : Scalar.lt x y = false) : Scalar.eq x y = true := by
  rw [scalar_le_eq] at le
  rw [scalar_lt_eq] at not_lt
  change ((number x).compare (number y) == some .eq) = true
  rcases order : (number x).compare (number y) with _ | _ | _ | _
  all_goals simp_all [UnpackedFloat.le, UnpackedFloat.lt]

/-- What is not below one is defined, and it is not below minus one. -/
theorem not_below_of_one_le {u : UnpackedFloat} (beyond : (one .positive).le u = true) :
    u.isNaN = false ∧ u.lt (one .negative) = false := by
  cases u with
  | notANumber => cases beyond
  | zero s => cases beyond
  | infinity s =>
    cases s with
    | positive => exact ⟨rfl, rfl⟩
    | negative => cases beyond
  | finite s m e pos =>
    cases s with
    | positive => exact ⟨rfl, rfl⟩
    | negative => cases beyond

/-- What can be compared is defined. -/
theorem isNaN_of_le {u v : UnpackedFloat} (below : u.le v = true) : u.isNaN = false := by
  cases u with
  | notANumber => cases below
  | zero s => rfl
  | infinity s => rfl
  | finite s m e pos => rfl

theorem expectation_of_one_le {e : Float} (beyond : Scalar.le 1 e = true) :
    Clamp.expectation e = 1 := by
  have apart := not_below_of_one_le (scalar_le_eq 1 e ▸ beyond)
  have defined : Scalar.isNaN e = false := apart.1
  have above : Scalar.lt e (-1) = false := (scalar_lt_eq e (-1)).trans apart.2
  cases exceeds : Scalar.lt 1 e with
  | true =>
    rw [Clamp.expectation, Clamp.into, defined, above, exceeds]
    rfl
  | false =>
    rcases HasEquality.eq_or_zero (eq_of_le_of_not_lt beyond exceeds) with rfl | ⟨zero, -⟩
    · decide +kernel
    · exact absurd zero (by decide +kernel)

theorem expectation_of_le_neg_one {e : Float} (beyond : Scalar.le e (-1) = true) :
    Clamp.expectation e = -1 := by
  have defined : Scalar.isNaN e = false := isNaN_of_le (scalar_le_eq e (-1) ▸ beyond)
  cases exceeds : Scalar.lt e (-1) with
  | true =>
    rw [Clamp.expectation, Clamp.into, defined, exceeds]
    rfl
  | false =>
    rcases HasEquality.eq_or_zero (eq_of_le_of_not_lt beyond exceeds) with rfl | ⟨-, zero⟩
    · decide +kernel
    · exact absurd zero (by decide +kernel)

theorem certain {e : Float} (beyond : Scalar.le 1 e = true) :
    Scalar.eq (Sampler.probability e) 0 = false ∧ Scalar.eq (Sampler.probability e) 1 = true := by
  rw [Sampler.probability, expectation_of_one_le beyond]
  decide +kernel

theorem impossible {e : Float} (beyond : Scalar.le e (-1) = true) :
    Scalar.eq (Sampler.probability e) 0 = true := by
  rw [Sampler.probability, expectation_of_le_neg_one beyond]
  decide +kernel

/-- Whatever the other functions are, the ends of the physical range are exact. -/
theorem Functions.hasExactEnds (f : Functions) : @HasExactEnds Float f.numerics.toScalar :=
  @HasExactEnds.mk Float f.numerics.toScalar certain impossible eq_of_unit

end Binary64

instance : HasExactEnds Float where
  certain := Binary64.certain
  impossible := Binary64.impossible
  unit := Binary64.eq_of_unit

end Nonlocal
