import Mathlib
import Nonlocal.Proofs.Exact.Number

/-!
Numbers that compare as equal.

In binary64 two numbers that compare as equal have the same bits, unless they are the two zeros. In
exact arithmetic they are the same number.
-/

namespace Nonlocal

/-- Numbers that compare as equal are the same number, or two zeros. -/
class HasEquality (K : Type) [Scalar K] : Prop where
  eq_or_zero {x y : K} :
    Scalar.eq x y = true → x = y ∨ Scalar.eq x 0 = true ∧ Scalar.eq y 0 = true

instance : HasEquality Float where
  eq_or_zero {x y} same := by
    have zero : Scalar.eq (0 : Float) 0 = true := by decide +kernel
    have negative : Scalar.eq (-0 : Float) 0 = true := by decide +kernel
    obtain ⟨-, -, same | ⟨rfl, rfl⟩ | ⟨rfl, rfl⟩⟩ := Float.beq_iff_ne_nan_and_eq.mp same
    · exact .inl same
    · exact .inr ⟨zero, negative⟩
    · exact .inr ⟨negative, zero⟩

/-- Of the numbers of size one there are two. -/
theorem Binary64.eq_of_unit {x : Float} (unit : (Scalar.eq x 1 || Scalar.eq x (-1)) = true) :
    x = 1 ∨ x = -1 := by
  rcases Bool.or_eq_true_iff.mp unit with same | same
  · rcases HasEquality.eq_or_zero same with rfl | ⟨-, zero⟩
    · exact .inl rfl
    · exact absurd zero (by decide +kernel)
  · rcases HasEquality.eq_or_zero same with rfl | ⟨-, zero⟩
    · exact .inr rfl
    · exact absurd zero (by decide +kernel)

theorem Binary64.isFinite_of_unit {x : Float}
    (unit : (Scalar.eq x 1 || Scalar.eq x (-1)) = true) : x.isFinite = true := by
  obtain rfl | rfl := eq_of_unit unit
  · decide +kernel
  · decide +kernel

namespace Exact

instance : HasEquality Exact where
  eq_or_zero {x y} same := by
    left
    change Exact.eq x y = true at same
    unfold Exact.eq at same
    split at same
    · exact congrArg finite (of_decide_eq_true same)
    · exact congrArg infinite (eq_of_beq same)
    · cases same

end Exact

end Nonlocal
