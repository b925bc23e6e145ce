import Nonlocal.Proofs.Exact.Number

/-!
Sums and opposite numbers.

Sums of exact numbers can be put in any order and split anywhere, at the infinities as between real
numbers. Sums and products turn around with their arguments, and what is undefined stays so. An
absolute value does not see the sign.
-/

namespace Nonlocal.Exact

protected theorem neg_neg (x : Exact) : - -x = x := by
  cases x with
  | finite x => exact congrArg finite (neg_neg x)
  | infinite s => exact congrArg infinite (Bool.not_not s)
  | nan => rfl

protected theorem add_comm (x y : Exact) : x + y = y + x := by
  rcases x with x | s | _ <;> rcases y with y | t | _
  case finite.finite => exact congrArg finite (add_comm x y)
  case infinite.infinite => cases s <;> cases t <;> rfl
  all_goals rfl

protected theorem add_assoc (x y z : Exact) : x + y + z = x + (y + z) := by
  rcases x with x | s | _ <;> rcases y with y | t | _ <;> rcases z with z | u | _
  case finite.finite.finite => exact congrArg finite (add_assoc x y z)
  case infinite.infinite.infinite => cases s <;> cases t <;> cases u <;> rfl
  case infinite.infinite.finite => cases s <;> cases t <;> rfl
  case infinite.infinite.nan => cases s <;> cases t <;> rfl
  case finite.infinite.infinite => cases t <;> cases u <;> rfl
  case nan.infinite.infinite => cases t <;> cases u <;> rfl
  all_goals rfl

protected theorem add_zero (x : Exact) : x + 0 = x := by
  rw [zero_eq]
  cases x with
  | finite x => exact congrArg finite (add_zero x)
  | infinite s => rfl
  | nan => rfl

protected theorem neg_add (x y : Exact) : -(x + y) = -x + -y := by
  rcases x with x | s | _ <;> rcases y with y | t | _
  case finite.finite => exact congrArg finite (neg_add x y)
  case infinite.infinite => cases s <;> cases t <;> rfl
  all_goals rfl

/-- The difference of opposite numbers. -/
theorem neg_sub_opposite (x y : Exact) : -x - -y = -(x - y) :=
  (Exact.neg_add x (-y)).symm

protected theorem neg_sub (x y : Exact) : -(x - y) = y - x := by
  change -(x + -y) = y + -x
  rw [Exact.neg_add, Exact.neg_neg, Exact.add_comm]

theorem infinityAlong_not (s : Bool) (x : ℝ) : infinityAlong (!s) x = -infinityAlong s x := by
  unfold infinityAlong
  split
  · rfl
  · exact congrArg infinite (Bool.not_xor s _)

theorem infinityAlong_neg (s : Bool) (x : ℝ) : infinityAlong s (-x) = -infinityAlong s x := by
  by_cases zero : x = 0
  · rw [zero, neg_zero, infinityAlong, if_pos rfl]
    rfl
  · have sides : decide (-x < 0) = !decide (x < 0) := by
      rw [← decide_not, decide_eq_decide, neg_lt_zero, not_lt]
      exact ⟨le_of_lt, fun le => le.lt_of_ne' zero⟩
    rw [infinityAlong, if_neg (neg_ne_zero.mpr zero), infinityAlong, if_neg zero, sides,
      Bool.xor_not]
    rfl

protected theorem neg_mul (x y : Exact) : -x * y = -(x * y) := by
  rcases x with x | s | _ <;> rcases y with y | t | _
  case finite.finite => exact congrArg finite (neg_mul x y)
  case finite.infinite => exact infinityAlong_neg t x
  case infinite.finite => exact infinityAlong_not s y
  case infinite.infinite => exact congrArg infinite (Bool.not_xor s t)
  all_goals rfl

protected theorem mul_comm (x y : Exact) : x * y = y * x := by
  rcases x with x | s | _ <;> rcases y with y | t | _
  case finite.finite => exact congrArg finite (mul_comm x y)
  case infinite.infinite => exact congrArg infinite (Bool.xor_comm s t)
  all_goals rfl

protected theorem mul_neg (x y : Exact) : x * -y = -(x * y) := by
  rw [Exact.mul_comm, Exact.neg_mul, Exact.mul_comm]

theorem abs_opposite (x : Exact) : Scalar.abs (-x) = Scalar.abs x := by
  cases x with
  | finite x => exact congrArg finite (abs_neg x)
  | infinite s => rfl
  | nan => rfl

end Nonlocal.Exact
