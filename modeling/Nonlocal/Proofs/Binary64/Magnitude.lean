import Nonlocal.Proofs.Binary64.Equality
import Nonlocal.Proofs.Binary64.Functions
import Nonlocal.Proofs.Binary64.Operations
import Nonlocal.Proofs.Register.Magnitude

/-!
Magnitudes in binary64.

The arithmetic of binary64 is given by its definition; sines, cosines and the quantiles of the
normal distribution are not, so they are taken from outside (`Binary64.Functions`). All that is
asked of them is that they stay within their range (`Functions.IsBounded`). Then the bounds of a
computation follow from those of its operations, as long as nothing comes close to the largest
exponent.
-/

namespace Nonlocal

namespace Binary64

open Float.Model Float.Model.UnpackedFloat

/-! ## Doubles within bounds -/

/-- Is this a number of at most `2 ^ b`, and not negative if the flag is set? -/
def Below (nonneg : Bool) (b : Nat) (x : Float) : Prop :=
  ∃ s, (nonneg = true → s = .positive) ∧ Within b s (number x)

variable {n m : Bool} {b c k : Nat} {x y : Float}

/-- A result that does not come close to the largest exponent is stored as it is. -/
theorem below_of_stored {s : Sign} {u : UnpackedFloat}
    (stored : number x = UnpackedFloat.unpack .binary64 (UnpackedFloat.pack .binary64 u))
    (within : Within b s u) (sign : n = true → s = .positive) (room : b ≤ maxDigits) :
    Below n b x := by
  have small : (b : Int) ≤ 970 := by
    unfold maxDigits at room
    omega
  rw [unpack_pack within small] at stored
  exact ⟨s, sign, stored ▸ within⟩

theorem Below.isFinite (h : Below n b x) : x.isFinite = true := by
  obtain ⟨s, -, within⟩ := h
  change (number x).isFinite = true
  generalize number x = u at within
  cases within <;> rfl

theorem Below.mono (h : Below n b x) (le : b ≤ c) : Below n c x := by
  obtain ⟨s, sign, within⟩ := h
  exact ⟨s, sign, within.mono (Int.ofNat_le.mpr le)⟩

theorem Below.forget (h : Below n b x) : Below false b x := by
  obtain ⟨s, -, within⟩ := h
  exact ⟨s, nofun, within⟩

theorem Below.neg (h : Below n b x) (room : b ≤ maxDigits) : Below false b (-x) := by
  obtain ⟨s, -, within⟩ := h
  exact below_of_stored rfl (within_neg within) nofun room

theorem both_positive {s t : Sign} (left : n = true → s = .positive)
    (right : m = true → t = .positive) (both : (n && m) = true) :
    s = .positive ∧ t = .positive := by
  obtain ⟨first, second⟩ := Bool.and_eq_true_iff.mp both
  exact ⟨left first, right second⟩

theorem Below.add (hx : Below n b x) (hy : Below m b y) (room : b < maxDigits) :
    Below (n && m) (b + 1) (x + y) := by
  obtain ⟨s, signX, withinX⟩ := hx
  obtain ⟨t, signY, withinY⟩ := hy
  obtain ⟨r, sign, sum⟩ := within_add withinX withinY
  exact below_of_stored rfl sum (fun both => sign (both_positive signX signY both)) room

theorem Below.add_small (hx : Below n (b + 60) x) (hy : Below m b y) (room : b + 60 ≤ maxDigits) :
    Below (n && m) (b + 60) (x + y) := by
  obtain ⟨s, signX, withinX⟩ := hx
  obtain ⟨t, signY, withinY⟩ := hy
  obtain ⟨r, sign, sum⟩ := within_add_small withinX withinY
  exact below_of_stored rfl sum (fun both => sign (both_positive signX signY both)) room

theorem Below.sub (hx : Below n b x) (hy : Below m b y) (room : b < maxDigits) :
    Below false (b + 1) (x - y) := by
  obtain ⟨s, -, withinX⟩ := hx
  obtain ⟨t, -, withinY⟩ := hy
  obtain ⟨r, -, difference⟩ := within_add withinX (within_neg withinY)
  rw [← sub_eq_add_neg] at difference
  exact below_of_stored rfl difference nofun room

theorem Below.one_sub (h : Below true 0 x) : Below true 0 (1 - x) := by
  obtain ⟨s, sign, within⟩ := h
  obtain rfl := sign rfl
  exact below_of_stored (s := .positive) rfl (within_one_sub within) (fun _ => rfl) (by decide)

theorem Below.mul (hx : Below n b x) (hy : Below m c y) (room : b + c ≤ maxDigits) :
    Below (n && m) (b + c) (x * y) := by
  obtain ⟨s, signX, withinX⟩ := hx
  obtain ⟨t, signY, withinY⟩ := hy
  have product := within_mul (Int.natCast_nonneg b) (Int.natCast_nonneg c) withinX withinY
  refine below_of_stored rfl product (fun both => ?_) room
  obtain ⟨rfl, rfl⟩ := both_positive signX signY both
  rfl

theorem Below.square (h : Below n b x) (room : b + b ≤ maxDigits) : Below true (b + b) (x * x) := by
  obtain ⟨s, -, within⟩ := h
  have product := within_mul (Int.natCast_nonneg b) (Int.natCast_nonneg b) within within
  exact below_of_stored rfl product (fun _ => by cases s <;> rfl) room

theorem Below.sqrt (h : Below true b x) (room : b ≤ maxDigits) : Below true b x.sqrt := by
  obtain ⟨s, sign, within⟩ := h
  obtain rfl := sign rfl
  exact below_of_stored rfl (within_sqrt (Int.natCast_nonneg b) within) (fun _ => rfl) room

/-! ## Counts -/

theorem within_one : Within 0 .positive (one .positive) :=
  .finite (by decide) ⟨by decide, by decide, .inl (by decide)⟩ (by decide) (by decide)

theorem within_count (small : k ≤ 2 ^ b) : Within b .positive
    (UnpackedFloat.mul Format.binary64 (.ofNat .binary64 k) (one .positive)) := by
  have product := within_mul (Int.natCast_nonneg b) (Int.le_refl 0) (within_ofNat small) within_one
  rwa [Int.add_zero] at product

/-- A count of few digits is converted by itself and multiplied by one. -/
theorem number_ofNat_short (short : k < 2 ^ 53) : number (Float.ofNat k) =
    UnpackedFloat.mul .binary64 (.ofNat .binary64 k) (one .positive) := by
  have converted : k.toUInt64.toNat = k := Nat.mod_eq_of_lt (by omega)
  have same : Float.ofNat k = k.toUInt64.toFloat * Float.ofBits 0x3FF0000000000000 :=
    dif_pos ⟨short, Nat.zero_le _⟩
  have small : k ≤ 2 ^ 53 := Nat.le_of_lt short
  have count : number k.toUInt64.toFloat = .ofNat .binary64 k := by
    change UnpackedFloat.unpack .binary64 (UnpackedFloat.pack .binary64
      (.ofNat .binary64 k.toUInt64.toNat)) = _
    rw [converted, unpack_pack (within_ofNat small) (by decide)]
  rw [← unpack_pack (within_count small) (by decide), same, ← count]
  rfl

theorem within_longCount (long : 2 ^ 53 ≤ k) (small : k ≤ 2 ^ b) : Within b .positive
    (roundWithAccuracy Format.binary64 .positive (k <<< 53) (-53) .exact) := by
  have digits : 53 ≤ k.log2 := le_log2_of_two_pow_le long
  have log := log2_shiftLeft (Nat.ne_of_gt (Nat.lt_of_lt_of_le (by decide) long)) 53
  refine within_roundWithAccuracy .positive (by omega) (.inl (by omega)) (by omega) (.of_exact ?_)
  have room : ((b : Int) - -53).toNat = b + 53 := by omega
  rw [Nat.shiftLeft_eq, room, Nat.pow_add]
  exact Nat.mul_le_mul_right _ small

/-- A count with too many digits is rounded as a mantissa, with zeros added to its end. -/
theorem number_ofNat_long (long : 2 ^ 53 ≤ k) (small : k ≤ 2 ^ b) (room : b ≤ maxDigits) :
    number (Float.ofNat k) =
      roundWithAccuracy .binary64 .positive (k <<< 53) (-53) .exact := by
  have limit : (b : Int) ≤ 970 := by
    unfold maxDigits at room
    omega
  have digits : 53 ≤ k.log2 := le_log2_of_two_pow_le long
  have same : Float.ofNat k = Float.ofModel (Float.Model.ofScientific k 0) :=
    dif_neg fun both => absurd both.1 (Nat.not_lt_of_ge long)
  have scaled : UnpackedFloat.ofScientific .binary64 k 0 =
      roundWithAccuracy .binary64 .positive (k <<< 53 * 1) (-53 + 0) .exact := by
    have width : (2 : Int) ^ Format.binary64.exponentBits = 2048 := rfl
    rw [UnpackedFloat.ofScientific, dif_neg (Nat.ne_of_gt (Nat.lt_of_lt_of_le (by decide) long)),
      if_neg (by omega), if_neg (by omega), if_pos (Int.le_refl 0)]
    rfl
  rw [Nat.mul_one, Int.add_zero] at scaled
  rw [← unpack_pack (within_longCount long small) limit, same, ← scaled]
  rfl

/-- A positive count is stored as a number that is at least one. -/
theorem stored_ofNat (positive : 0 < k) (small : k ≤ 2 ^ b) (room : b ≤ maxDigits) :
    Within b .positive (number (Float.ofNat k)) ∧ AtLeastOne (number (Float.ofNat k)) := by
  by_cases short : k < 2 ^ 53
  · rw [number_ofNat_short short]
    exact ⟨within_count small, (atLeastOne_ofNat positive).mul_one⟩
  · have long := Nat.le_of_not_lt short
    have digits : 53 ≤ k.log2 := le_log2_of_two_pow_le long
    have log := log2_shiftLeft (Nat.ne_of_gt positive) 53
    rw [number_ofNat_long long small room]
    exact ⟨within_longCount long small,
      atLeastOne_round .exact (by decide) (by omega) (by omega)⟩

theorem below_ofNat (small : k ≤ 2 ^ b) (room : b ≤ maxDigits) : Below true b (Float.ofNat k) := by
  obtain rfl | positive := Nat.eq_zero_or_pos k
  · exact ⟨.positive, fun _ => rfl, .zero .positive⟩
  · exact ⟨.positive, fun _ => rfl, (stored_ofNat positive small room).1⟩

theorem Below.div (h : Below n b x) (room : b ≤ maxDigits) (large : AtLeastOne (number y)) :
    Below n b (x / y) := by
  obtain ⟨s, sign, within⟩ := h
  exact below_of_stored rfl (within_div (by omega) within large) sign room

theorem Below.div_ofNat (h : Below n b x) (room : b ≤ maxDigits) (positive : 0 < k)
    (small : k ≤ 2 ^ maxDigits) : Below n b (x / Float.ofNat k) :=
  h.div room (stored_ofNat positive small (Nat.le_refl _)).2

/-! ## Numbers within a range -/

/-- A number that is neither below the one bound nor above the other. -/
structure Between (lo hi x : Float) : Prop where
  number : x.isNaN = false
  lower : Scalar.lt x lo = false
  upper : Scalar.lt hi x = false

theorem between_into {lo hi : Float} (zero : Between lo hi 0) (low : Between lo hi lo)
    (high : Between lo hi hi) (x : Float) : Between lo hi (Clamp.into lo hi x) := by
  rw [Clamp.into]
  split
  · exact zero
  · next defined =>
    split
    · exact low
    · next lower =>
      split
      · exact high
      · next upper =>
        exact ⟨Bool.not_eq_true _ ▸ defined, Bool.not_eq_true _ ▸ lower, Bool.not_eq_true _ ▸ upper⟩

theorem Between.below_one (h : Between (-1) 1 x) : Below false 0 x := by
  obtain ⟨number, lower, upper⟩ := h
  rw [scalar_lt_eq] at lower upper
  obtain ⟨s, within⟩ := within_zero_of_bounds number (fun _ _ _ _ => isStored_of_unpack) lower upper
  exact ⟨s, nofun, within⟩

/-- A number between zero and a power of two, which is given by its exponent. -/
theorem within_of_bounds {top : Int} {u : UnpackedFloat} (number : u.isNaN = false)
    (stored : ∀ s m e pos, u = .finite s m e pos → IsStored m e)
    (lower : u.lt (.zero .positive) = false)
    (upper : UnpackedFloat.lt (.finite .positive (2 ^ 52) top (by decide)) u = false) :
    Within (top + 52) .positive u := by
  cases u with
  | notANumber => cases number
  | infinity s => cases s <;> contradiction
  | zero t => exact .zero t
  | finite s m e pos =>
    cases s with
    | negative => cases lower
    | positive =>
      refine within_of_compare .positive (stored .positive m e pos rfl) fun exceeds => ?_
      change (some ((compare top e).then (compare (2 ^ 52) m)) == some .lt) = false at upper
      rw [exceeds] at upper
      cases upper

theorem Between.below_power {hi : Float} {top : Int}
    (power : Binary64.number hi = .finite .positive (2 ^ 52) top (by decide)) (h : Between 0 hi x)
    (le : top + 52 ≤ b) : Below true b x := by
  obtain ⟨number, lower, upper⟩ := h
  rw [scalar_lt_eq] at lower upper
  rw [power] at upper
  have within := within_of_bounds number (fun _ _ _ _ => isStored_of_unpack) lower upper
  exact ⟨.positive, fun _ => rfl, within.mono le⟩

theorem below_depolarizing (p : Float) : Below true 0 (Clamp.depolarizing p) := by
  have half : number Clamp.maxDepolarizing = .finite .positive (2 ^ 52) (-53) (by decide) := rfl
  have zero : Between 0 Clamp.maxDepolarizing 0 :=
    ⟨by decide +kernel, by decide +kernel, by decide +kernel⟩
  have high : Between 0 Clamp.maxDepolarizing Clamp.maxDepolarizing :=
    ⟨by decide +kernel, by decide +kernel, by decide +kernel⟩
  exact (between_into zero zero high p).below_power half (by decide)

theorem below_of_unit (unit : (Scalar.eq x 1 || Scalar.eq x (-1)) = true) : Below false 0 x := by
  obtain rfl | rfl := eq_of_unit unit
  · exact Between.below_one ⟨by decide +kernel, by decide +kernel, by decide +kernel⟩
  · exact Between.below_one ⟨by decide +kernel, by decide +kernel, by decide +kernel⟩

theorem isFinite_neg (finite : x.isFinite = true) : (-x).isFinite = true := by
  change (UnpackedFloat.unpack .binary64 (UnpackedFloat.pack .binary64 (number x).neg)).isFinite =
    true
  change (number x).isFinite = true at finite
  cases read : number x with
  | notANumber =>
    rw [read] at finite
    cases finite
  | infinity s =>
    rw [read] at finite
    cases finite
  | zero s => cases s <;> rfl
  | finite s m e pos =>
    have stored : UnpackedFloat.unpack .binary64 (UnpackedFloat.pack .binary64
        (.finite (-s) m e pos)) = .finite (-s) m e pos :=
      unpack_pack_finite (isStored_of_unpack read) (exponent_le_of_unpack read)
    rw [UnpackedFloat.neg, stored]
    rfl

/-! ## Functions -/

namespace Functions

variable (f : Functions)

/-- The functions stay within their range: sine and cosine at every angle, the quantiles at every
probability from one half up to certainty. -/
structure IsBounded : Prop where
  sin {x : Float} : x.isFinite = true → Between (-1) 1 (f.sin x)
  cos {x : Float} : x.isFinite = true → Between (-1) 1 (f.cos x)
  normalQuantile {p : Float} :
    Scalar.le (1 / 2) p = true → Scalar.lt p 1 = true → Between 0 16 (f.normalQuantile p)

variable {f}

/-- The quantile of the confidence level of a run is one of those that are bounded. -/
theorem IsBounded.below_deviations (h : f.IsBounded) :
    Below true 4 (@Confidence.deviations Float f.numerics (Scalar.ofScientific 99 true 2)) := by
  have sixteen : number 16 = .finite .positive (2 ^ 52) (-48) (by decide) := rfl
  have lower : Scalar.le (1 / 2 : Float) (1 / 2 + Scalar.min
      (Clamp.unit (Scalar.ofScientific 99 true 2)) (1 - Scalar.ofScientific 1 true 12) / 2) =
      true := by decide +kernel
  have upper : Scalar.lt (1 / 2 + Scalar.min (Clamp.unit (Scalar.ofScientific 99 true 2))
      (1 - Scalar.ofScientific 1 true 12) / 2 : Float) 1 = true := by decide +kernel
  exact (h.normalQuantile lower upper).below_power sixteen (by decide)

/-- Magnitudes are followed through the arithmetic of binary64. -/
abbrev IsBounded.hasMagnitudes (h : f.IsBounded) : @HasMagnitudes Float f.numerics :=
  letI := f.numerics
  { Below
    isFinite := Below.isFinite
    mono := Below.mono
    forget := Below.forget
    ofNat := below_ofNat
    neg := Below.neg
    add := Below.add
    add_small := Below.add_small
    sub := Below.sub
    one_sub := Below.one_sub
    mul := Below.mul
    square := Below.square
    div_ofNat := Below.div_ofNat
    sqrt := Below.sqrt
    clamp_expectation := fun e =>
      have ⟨s, within⟩ := within_expectation e
      ⟨s, nofun, within⟩
    clamp_depolarizing := below_depolarizing
    unit := below_of_unit
    angle_neg := isFinite_neg
    sin := fun finite => (h.sin finite).below_one
    cos := fun finite => (h.cos finite).below_one
    deviations := h.below_deviations }

end Functions

end Binary64

end Nonlocal
