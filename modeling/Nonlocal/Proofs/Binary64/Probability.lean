import Nonlocal.Proofs.Binary64.Rounding
import Nonlocal.Proofs.Run.Sampling

/-!
Probabilities in binary64.

An expectation value is folded into the range from minus one to one, one is added, and the sum is
halved. Both operations round, but neither rounds past a power of two: the sum stays within zero and
two and the half within zero and one (`Binary64.probability_bounds`). So sampling never fails in
binary64 either.
-/

namespace Nonlocal

namespace Binary64

open Float.Model Float.Model.UnpackedFloat

/-! ## Numbers between minus one and one -/

/-- A magnitude that does not exceed a power of two, which is given by its exponent. -/
theorem within_of_compare {top : Int} {m : Nat} {e : Int} {pos : 0 < m} (s : Sign)
    (stored : IsStored m e) (h : (compare top e).then (compare (2 ^ 52) m) ≠ .lt) :
    Within (top + 52) s (.finite s m e pos) := by
  have ordered : e < top ∨ e = top ∧ m ≤ 2 ^ 52 := by
    rw [Ne, Ordering.then_eq_lt, Int.compare_eq_lt, Int.compare_eq_eq, Nat.compare_eq_lt] at h
    omega
  obtain below | ⟨rfl, bounded⟩ := ordered
  · have room : 2 ^ 53 ≤ 2 ^ (top + 52 - e).toNat := Nat.pow_le_pow_right (by decide) (by omega)
    exact .finite pos stored (by omega) (Nat.le_trans (Nat.le_of_lt stored.digits) room)
  · have room : 2 ^ 52 ≤ 2 ^ (e + 52 - e).toNat := Nat.pow_le_pow_right (by decide) (by omega)
    exact .finite pos stored (by omega) (Nat.le_trans bounded room)

theorem within_zero_of_bounds {u : UnpackedFloat} (number : u.isNaN = false)
    (stored : ∀ s m e pos, u = .finite s m e pos → IsStored m e)
    (lower : u.lt (one .negative) = false) (upper : (one .positive).lt u = false) :
    ∃ s, Within 0 s u := by
  cases u with
  | notANumber => cases number
  | infinity s => cases s <;> contradiction
  | zero t => exact ⟨.positive, .zero t⟩
  | finite s m e pos =>
    suffices below : Within (-52 + 52) s (.finite s m e pos) from ⟨s, below⟩
    refine within_of_compare s (stored s m e pos rfl) fun exceeds => ?_
    cases s with
    | negative =>
      change (some ((compare e (-52)).then (compare m (2 ^ 52))).swap == some .lt) = false at lower
      rw [Ordering.swap_then, Int.compare_swap, Nat.compare_swap, exceeds] at lower
      cases lower
    | positive =>
      change (some ((compare (-52) e).then (compare (2 ^ 52) m)) == some .lt) = false at upper
      rw [exceeds] at upper
      cases upper

theorem le_of_within_zero {u : UnpackedFloat} (h : Within 0 .positive u) :
    UnpackedFloat.le (.zero .positive) u = true ∧ u.le (one .positive) = true := by
  cases h with
  | zero t => exact ⟨rfl, rfl⟩
  | @finite m e pos stored exponent_le mantissa_le =>
    have low := stored.exponent_le (by decide) mantissa_le
    refine ⟨rfl, ?_⟩
    change ((compare e (-52)).then (compare m (2 ^ 52))).isLE = true
    have ordered : (compare e (-52)).then (compare m (2 ^ 52)) ≠ .gt := by
      rw [Ne, Ordering.then_eq_gt, Int.compare_eq_gt, Int.compare_eq_eq, Nat.compare_eq_gt]
      rintro (above | ⟨rfl, above⟩)
      · omega
      · exact absurd mantissa_le (Nat.not_le_of_gt above)
    cases order : (compare e (-52)).then (compare m (2 ^ 52)) with
    | gt => exact absurd order ordered
    | eq => rfl
    | lt => rfl

/-! ## Doubles -/

/-- What a double stands for. -/
def number (x : Float) : UnpackedFloat :=
  x.toModel.unpack

theorem scalar_lt_eq (x y : Float) : Scalar.lt x y = (number x).lt (number y) := by
  change decide (decide ((number x).lt (number y) = true) = true) = _
  rw [Bool.decide_eq_true, Bool.decide_eq_true]

theorem scalar_le_eq (x y : Float) : Scalar.le x y = (number x).le (number y) := by
  change decide (decide ((number x).le (number y) = true) = true) = _
  rw [Bool.decide_eq_true, Bool.decide_eq_true]

theorem number_add {b : Int} (hb : b ≤ 970) {s : Sign} {x y : Float}
    (h : Within b s (.add .binary64 (number x) (number y))) :
    number (x + y) = .add .binary64 (number x) (number y) :=
  unpack_pack h hb

theorem number_div {b : Int} (hb : b ≤ 970) {s : Sign} {x y : Float}
    (h : Within b s (.div .binary64 (number x) (number y))) :
    number (x / y) = .div .binary64 (number x) (number y) :=
  unpack_pack h hb

/-- An expectation value is folded into the range from minus one to one. -/
theorem within_expectation (e : Float) : ∃ s, Within 0 s (number (Clamp.expectation e)) := by
  have whole (s : Sign) : Within 0 s (one s) :=
    .finite (by decide) ⟨by decide, by decide, .inl (by decide)⟩ (by decide) (by decide)
  rw [Clamp.expectation, Clamp.into]
  split
  · exact ⟨.positive, .zero .positive⟩
  · next defined =>
    split
    · exact ⟨.negative, whole .negative⟩
    · next lower =>
      split
      · exact ⟨.positive, whole .positive⟩
      · next upper =>
        rw [scalar_lt_eq, Bool.not_eq_true] at lower upper
        rw [Bool.not_eq_true] at defined
        exact within_zero_of_bounds defined (fun _ _ _ _ => isStored_of_unpack) lower upper

/-- In binary64 every expectation value has a probability between zero and one. -/
theorem probability_bounds (e : Float) :
    Scalar.le 0 (Sampler.probability e) = true ∧ Scalar.le (Sampler.probability e) 1 = true := by
  obtain ⟨s, folded⟩ := within_expectation e
  have sum : Within 1 .positive (.add .binary64 (number 1) (number (Clamp.expectation e))) :=
    within_one_add folded
  have half :
      Within 0 .positive (.div .binary64 (number (1 + Clamp.expectation e)) (number 2)) := by
    rw [number_add (by decide) sum]
    exact within_half sum
  have quotient := number_div (by decide) half
  rw [scalar_le_eq, scalar_le_eq]
  change UnpackedFloat.le (.zero .positive) (number ((1 + Clamp.expectation e) / 2)) = true ∧
    (number ((1 + Clamp.expectation e) / 2)).le (one .positive) = true
  rw [quotient]
  exact le_of_within_zero half

end Binary64

instance : HasProbabilities Float where
  bounds := Binary64.probability_bounds

end Nonlocal
