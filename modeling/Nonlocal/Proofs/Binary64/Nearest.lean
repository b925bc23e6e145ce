import Nonlocal.Proofs.Binary64.Magnitude

/-!
Which number a count is rounded to.

A natural number is rounded to 53 binary digits, and to the even one of two neighbours that are
equally near (`nearest`). That is what a count is converted to in binary64 (`value?_ofNat`); a
division by a power of two then is exact (`value?_div_power`), and numbers are compared as the
rational numbers that they stand for (`lt_iff_of_rational?`).
-/

namespace Nonlocal.Binary64

open Float.Model Float.Model.UnpackedFloat

/-! ## Rounding to even -/

/-- The whole number that is nearest to a quotient, and the even one halfway between two. -/
def roundedQuotient (m d : ℕ) : ℕ :=
  if 2 * (m % d) < d ∨ 2 * (m % d) = d ∧ m / d % 2 = 0 then m / d else m / d + 1

/-- The digits of a number in excess of 53. -/
def excessDigits (m : ℕ) : ℕ :=
  m.log2 - 52

/-- The nearest number that has no more than 53 binary digits before its zeros. -/
def nearest (m : ℕ) : ℕ :=
  roundedQuotient m (2 ^ excessDigits m) * 2 ^ excessDigits m

variable {m n d k : ℕ} {e : ℤ}

theorem roundedQuotient_one (m : ℕ) : roundedQuotient m 1 = m := by
  rw [roundedQuotient, Nat.mod_one, Nat.div_one, if_pos (.inl Nat.one_pos)]

/-- Rounding moves a number by half a unit at most. -/
theorem roundedQuotient_error (m : ℕ) (positive : 0 < d) :
    2 * (roundedQuotient m d * d) ≤ 2 * m + d ∧ 2 * m ≤ 2 * (roundedQuotient m d * d) + d := by
  have parts := Nat.div_add_mod' m d
  have rest := Nat.mod_lt m positive
  unfold roundedQuotient
  split_ifs with down
  · omega
  · rw [Nat.add_mul, Nat.one_mul]
    omega

theorem div_le_roundedQuotient (m d : ℕ) : m / d ≤ roundedQuotient m d := by
  unfold roundedQuotient
  split_ifs <;> omega

theorem roundedQuotient_le_succ (m d : ℕ) : roundedQuotient m d ≤ m / d + 1 := by
  unfold roundedQuotient
  split_ifs <;> omega

theorem roundedQuotient_mono (d : ℕ) (le : m ≤ n) : roundedQuotient m d ≤ roundedQuotient n d := by
  obtain same | below := Nat.eq_or_lt_of_le (Nat.div_le_div_right (c := d) le)
  · have left := Nat.div_add_mod' m d
    have right := Nat.div_add_mod' n d
    rw [same] at left
    unfold roundedQuotient
    rw [same]
    split_ifs <;> omega
  · calc roundedQuotient m d ≤ m / d + 1 := roundedQuotient_le_succ m d
      _ ≤ n / d := below
      _ ≤ roundedQuotient n d := div_le_roundedQuotient n d

theorem roundedQuotient_scale (m d : ℕ) (positive : 0 < k) :
    roundedQuotient (m * k) (d * k) = roundedQuotient m d := by
  have scaled : 2 * (m % d * k) = 2 * (m % d) * k := (Nat.mul_assoc ..).symm
  have lt_iff : 2 * (m % d) * k < d * k ↔ 2 * (m % d) < d := Nat.mul_lt_mul_right positive
  have eq_iff : 2 * (m % d) * k = d * k ↔ 2 * (m % d) = d := Nat.mul_left_inj positive.ne'
  unfold roundedQuotient
  simp only [Nat.mul_div_mul_right _ _ positive, Nat.mul_mod_mul_right, scaled, lt_iff, eq_iff]

/-- A quotient without a remainder is not rounded. -/
theorem roundedQuotient_mul (m : ℕ) (positive : 0 < d) : roundedQuotient (m * d) d = m := by
  calc roundedQuotient (m * d) d = roundedQuotient (m * d) (1 * d) := by rw [Nat.one_mul]
    _ = roundedQuotient m 1 := roundedQuotient_scale m 1 positive
    _ = m := roundedQuotient_one m

/-! ## The nearest number of 53 digits -/

theorem excessDigits_eq_zero (small : m < 2 ^ 53) : excessDigits m = 0 := by
  obtain rfl | positive := Nat.eq_zero_or_pos m
  · simp [excessDigits]
  · have := (Nat.log2_lt positive.ne').mpr small
    unfold excessDigits
    omega

theorem nearest_eq (small : m < 2 ^ 53) : nearest m = m := by
  rw [nearest, excessDigits_eq_zero small, Nat.pow_zero, roundedQuotient_one, Nat.mul_one]

/-- Zeros at the end of a number play no part. -/
theorem nearest_mul_two_pow (j : ℕ) (long : 2 ^ 52 ≤ m) :
    nearest (m * 2 ^ j) = nearest m * 2 ^ j := by
  have positive : m ≠ 0 := Nat.ne_of_gt (Nat.lt_of_lt_of_le (by decide) long)
  have digits : 52 ≤ m.log2 := le_log2_of_two_pow_le long
  have longer : excessDigits (m * 2 ^ j) = excessDigits m + j := by
    rw [excessDigits, excessDigits, ← Nat.shiftLeft_eq, log2_shiftLeft positive]
    omega
  rw [nearest, nearest, longer, Nat.pow_add, roundedQuotient_scale m _ (Nat.two_pow_pos j),
    Nat.mul_assoc]

/-- The powers of two between which a number lies are not crossed. -/
theorem nearest_mem_powers (nonzero : m ≠ 0) :
    2 ^ m.log2 ≤ nearest m ∧ nearest m ≤ 2 ^ (m.log2 + 1) := by
  by_cases small : m < 2 ^ 53
  · rw [nearest_eq small]
    exact ⟨Nat.log2_self_le nonzero, Nat.lt_log2_self.le⟩
  · have long : 53 ≤ m.log2 := le_log2_of_two_pow_le (Nat.le_of_not_lt small)
    have lower : m.log2 = 52 + excessDigits m := by
      unfold excessDigits
      omega
    have upper : m.log2 + 1 = 53 + excessDigits m := by omega
    have unit := Nat.two_pow_pos (excessDigits m)
    rw [upper, nearest, lower, Nat.pow_add, Nat.pow_add]
    constructor
    · apply Nat.mul_le_mul_right
      rw [← roundedQuotient_mul (2 ^ 52) unit]
      apply roundedQuotient_mono
      rw [← Nat.pow_add, ← lower]
      exact Nat.log2_self_le nonzero
    · apply Nat.mul_le_mul_right
      rw [← roundedQuotient_mul (2 ^ 53) unit]
      apply roundedQuotient_mono
      rw [← Nat.pow_add, ← upper]
      exact Nat.lt_log2_self.le

theorem nearest_mono (le : m ≤ n) : nearest m ≤ nearest n := by
  obtain rfl | positive := Nat.eq_zero_or_pos m
  · exact Nat.zero_le _
  · have nonzero : n ≠ 0 := by omega
    have digits : m.log2 ≤ n.log2 :=
      (Nat.le_log2 nonzero).mpr ((Nat.log2_self_le positive.ne').trans le)
    obtain same | shorter := Nat.eq_or_lt_of_le digits
    · rw [nearest, nearest, excessDigits, excessDigits, same]
      exact Nat.mul_le_mul_right _ (roundedQuotient_mono _ le)
    · calc nearest m ≤ 2 ^ (m.log2 + 1) := (nearest_mem_powers positive.ne').2
        _ ≤ 2 ^ n.log2 := Nat.pow_le_pow_right (by decide) shorter
        _ ≤ nearest n := (nearest_mem_powers nonzero).1

/-- A number below `2 ^ 64` loses eleven digits at most, and moves by half a unit of the last one
that it keeps. -/
theorem nearest_error (word : m < 2 ^ 64) : nearest m ≤ m + 2 ^ 10 ∧ m ≤ nearest m + 2 ^ 10 := by
  have few : excessDigits m ≤ 11 := by
    unfold excessDigits
    obtain rfl | positive := Nat.eq_zero_or_pos m
    · simp
    · have := (Nat.log2_lt positive.ne').mpr word
      omega
  have unit : 2 ^ excessDigits m ≤ 2 ^ 11 := Nat.pow_le_pow_right (by decide) few
  have error := roundedQuotient_error m (Nat.two_pow_pos (excessDigits m))
  unfold nearest
  omega

/-! ## Values -/

/-- The rational number that a finite number stands for. -/
def rational? : UnpackedFloat → Option ℚ
  | .zero _ => some 0
  | .finite s m e _ => some ((s.apply m : ℤ) * 2 ^ e)
  | .infinity _ | .notANumber => none

/-- The rational number that a finite double stands for. -/
def value? (x : Float) : Option ℚ :=
  rational? (number x)

/-! ## Rounding a mantissa -/

theorem stickyBit_shiftRight (m k : ℕ) :
    (ExtendedMantissa.ofMantissaAndAccuracy m .exact >>> (k + 1)).stickyBit =
      (m % 2 ^ k != 0) := by
  induction k with
  | zero =>
    rw [Nat.pow_zero, Nat.mod_one]
    rfl
  | succ k ih =>
    change ((ExtendedMantissa.ofMantissaAndAccuracy m .exact >>> (k + 1)).roundBit ||
      (ExtendedMantissa.ofMantissaAndAccuracy m .exact >>> (k + 1)).stickyBit) = _
    have unit := Nat.two_pow_pos k
    have split : (m % 2 ^ (k + 1) != 0) = (m / 2 ^ k % 2 != 0 || m % 2 ^ k != 0) := by
      rw [Nat.mod_pow_succ, Bool.eq_iff_iff, Bool.or_eq_true, bne_iff_ne, bne_iff_ne, bne_iff_ne]
      rcases Nat.mod_two_eq_zero_or_one (m / 2 ^ k) with even | odd
      · rw [even]
        omega
      · rw [odd]
        omega
    rw [ih, roundBit_shiftRight, mantissa_ofMantissaAndAccuracy, split]

/-- The bits that a mantissa keeps track of round it to the nearest number. -/
theorem roundedMantissa_shiftRight (m k : ℕ) :
    (ExtendedMantissa.ofMantissaAndAccuracy m .exact >>> k).roundedMantissa =
      roundedQuotient m (2 ^ k) := by
  cases k with
  | zero =>
    rw [Nat.pow_zero, roundedQuotient_one]
    rfl
  | succ k =>
    have kept := mantissa_shiftRight (.ofMantissaAndAccuracy m .exact) (k + 1)
    have round := roundBit_shiftRight (.ofMantissaAndAccuracy m .exact) k
    have sticky := stickyBit_shiftRight m k
    rw [mantissa_ofMantissaAndAccuracy] at kept round
    generalize ExtendedMantissa.ofMantissaAndAccuracy m .exact >>> (k + 1) = em at *
    obtain ⟨q, r, s⟩ := em
    obtain rfl : q = m / 2 ^ (k + 1) := kept
    obtain rfl : r = (m / 2 ^ k % 2 != 0) := round
    obtain rfl : s = (m % 2 ^ k != 0) := sticky
    have rest : m % 2 ^ (k + 1) = m % 2 ^ k + 2 ^ k * (m / 2 ^ k % 2) := Nat.mod_pow_succ
    have below := Nat.mod_lt m (Nat.two_pow_pos k)
    have unit : 2 ^ (k + 1) = 2 * 2 ^ k := by rw [Nat.pow_succ, Nat.mul_comm]
    rcases Nat.mod_two_eq_zero_or_one (m / 2 ^ k) with digit | digit
    · rw [digit] at rest ⊢
      rw [roundedQuotient, if_pos (.inl (by omega)), roundedMantissa_of_roundBit rfl]
    · rw [digit] at rest ⊢
      by_cases halfway : m % 2 ^ k = 0
      · rw [halfway]
        change m / 2 ^ (k + 1) + m / 2 ^ (k + 1) % 2 = _
        rw [roundedQuotient]
        split_ifs <;> omega
      · rw [bne_iff_ne.mpr halfway]
        change m / 2 ^ (k + 1) + 1 = _
        rw [roundedQuotient, if_neg (by omega)]

/-- A mantissa of 53 digits, or the next power of two, loses no more than a zero. -/
theorem div_excess_mul (le : m ≤ 2 ^ 53) : m / 2 ^ excessDigits m * 2 ^ excessDigits m = m := by
  obtain below | rfl := Nat.lt_or_eq_of_le le
  · rw [excessDigits_eq_zero below, Nat.pow_zero, Nat.div_one, Nat.mul_one]
  · decide +kernel

theorem roundedQuotient_excess_le (m : ℕ) : roundedQuotient m (2 ^ excessDigits m) ≤ 2 ^ 53 := by
  have unit := Nat.two_pow_pos (excessDigits m)
  have digits : m ≤ 2 ^ 53 * 2 ^ excessDigits m := by
    rw [← Nat.pow_add]
    refine Nat.lt_log2_self.le.trans (Nat.pow_le_pow_right (by decide) ?_)
    unfold excessDigits
    omega
  rw [← roundedQuotient_mul (2 ^ 53) unit]
  exact roundedQuotient_mono _ digits

theorem apply_mul (s : Sign) (x y : ℤ) : s.apply (x * y) = s.apply x * y := by
  cases s with
  | positive => rfl
  | negative => exact Int.neg_mul_eq_neg_mul x y

/-- Away from the smallest numbers rounding gives the nearest one of 53 digits. -/
theorem rational?_roundWithAccuracy (s : Sign) (m : ℕ) (least : -1074 ≤ e) :
    rational? (roundWithAccuracy Format.binary64 s m e .exact) =
      some (((s.apply (nearest m) : ℤ) : ℚ) * 2 ^ e) := by
  have lost : excess m e = excessDigits m := excess_eq m least
  have carried : excess (roundedQuotient m (2 ^ excessDigits m)) (e + excessDigits m) =
      excessDigits (roundedQuotient m (2 ^ excessDigits m)) := excess_eq _ (by omega)
  simp only [roundWithAccuracy, shiftToTargetExponent_eq, roundedMantissa_shiftRight, lost, carried,
    mantissa_shiftRight, mantissa_ofMantissaAndAccuracy]
  have parts := div_excess_mul (roundedQuotient_excess_le m)
  rw [nearest]
  split
  · next none =>
    rw [none, Nat.zero_mul] at parts
    rw [← parts, Nat.zero_mul]
    cases s <;> simp [rational?, Sign.apply]
  · rw [rational?]
    generalize roundedQuotient m (2 ^ excessDigits m) = r at parts ⊢
    have power : (2 : ℚ) ^ (e + excessDigits m + excessDigits r) =
        2 ^ excessDigits r * (2 ^ excessDigits m * 2 ^ e) := by
      rw [zpow_add₀ two_ne_zero, zpow_add₀ two_ne_zero, zpow_natCast, zpow_natCast]
      ring
    have value : s.apply r = s.apply (r / 2 ^ excessDigits r : ℕ) * (2 ^ excessDigits r : ℕ) := by
      rw [← apply_mul, ← Nat.cast_mul, parts]
    rw [power, Nat.cast_mul, apply_mul, value]
    push_cast
    congr 1
    ring

theorem rational?_round (s : Sign) (m : ℕ) (least : -1074 ≤ e) :
    rational? (UnpackedFloat.round Format.binary64 s m e) =
      some (((s.apply (nearest m) : ℤ) : ℚ) * 2 ^ e) := by
  simp only [UnpackedFloat.round, decreaseExponent, targetExponent_eq]
  generalize shift : (e - max ((m.log2 : ℤ) + e - 52) (-1074)).toNat = k
  rw [rational?_roundWithAccuracy s _ (by omega), Nat.shiftLeft_eq]
  obtain rfl | moved := Nat.eq_zero_or_pos k
  · rw [Nat.pow_zero, Nat.mul_one, Nat.cast_zero, sub_zero]
  · -- Only a number of fewer digits is shifted to the left, and no digit of it is lost.
    have digits : m * 2 ^ k < 2 ^ 53 := by
      calc m * 2 ^ k < 2 ^ (m.log2 + 1) * 2 ^ k :=
            (Nat.mul_lt_mul_right (Nat.two_pow_pos k)).mpr Nat.lt_log2_self
        _ = 2 ^ (m.log2 + 1 + k) := (Nat.pow_add ..).symm
        _ ≤ 2 ^ 53 := Nat.pow_le_pow_right (by decide) (by omega)
    have fewer : m < 2 ^ 53 :=
      Nat.lt_of_le_of_lt (Nat.le_mul_of_pos_right m (Nat.two_pow_pos k)) digits
    rw [nearest_eq digits, nearest_eq fewer, Nat.cast_mul, apply_mul, zpow_sub₀ two_ne_zero,
      zpow_natCast]
    push_cast
    field_simp

/-! ## Counts -/

theorem rational?_positive {pos : 0 < m} :
    rational? (.finite .positive m e pos) = some ((m : ℚ) * 2 ^ e) := by
  rw [rational?, Sign.apply, Int.cast_natCast]

theorem rational?_mul_one {u : UnpackedFloat} (large : AtLeastOne u) :
    rational? (UnpackedFloat.mul Format.binary64 u (one .positive)) = rational? u := by
  obtain @⟨m, e, pos, leading, digits, exponent⟩ := large
  change rational? (roundWithAccuracy _ .positive (m * 2 ^ 52) (e + -52) .exact) = _
  have zeros : ((2 ^ 52 : ℕ) : ℚ) * 2 ^ (-52 : ℤ) = 1 := by norm_num
  rw [rational?_roundWithAccuracy _ _ (by omega), rational?_positive,
    nearest_mul_two_pow 52 leading,
    nearest_eq digits, Sign.apply, Int.cast_natCast, Nat.cast_mul, Int.add_comm,
    zpow_add₀ two_ne_zero, mul_assoc, ← mul_assoc _ (2 ^ (-52 : ℤ)), zeros, one_mul]

/-- A count is converted to the nearest number. -/
theorem value?_ofNat {b : ℕ} (small : k ≤ 2 ^ b) (room : b ≤ maxDigits) :
    value? (Float.ofNat k) = some (nearest k : ℚ) := by
  rw [value?]
  by_cases short : k < 2 ^ 53
  · rw [number_ofNat_short short]
    obtain rfl | positive := Nat.eq_zero_or_pos k
    · rfl
    · rw [rational?_mul_one (atLeastOne_ofNat positive), ofNat_eq_round positive,
        rational?_round _ _ (by decide), Sign.apply, zpow_zero, mul_one, Int.cast_natCast]
  · have long := Nat.le_of_not_lt short
    have digits : 2 ^ 52 ≤ k := Nat.le_trans (by decide) long
    have zeros : ((2 ^ 53 : ℕ) : ℚ) * 2 ^ (-53 : ℤ) = 1 := by norm_num
    rw [number_ofNat_long long small room, rational?_roundWithAccuracy _ _ (by decide),
      Nat.shiftLeft_eq, nearest_mul_two_pow 53 digits, Sign.apply, Int.cast_natCast, Nat.cast_mul,
      mul_assoc, zeros, mul_one]

/-- A number that is at least one is divided by a power of two without rounding. -/
theorem rational?_div_power {u : UnpackedFloat} {t : ℤ} (large : AtLeastOne u) (range : t ≤ 900)
    {q : ℚ} (value : rational? u = some q) :
    rational? (UnpackedFloat.div Format.binary64 u (.finite .positive (2 ^ 52) t (by decide))) =
      some (q / (2 ^ 52 * 2 ^ t)) := by
  obtain @⟨m, e, pos, leading, digits, exponent⟩ := large
  have log : m.log2 = 52 := (Nat.log2_eq_iff (Nat.ne_of_gt pos)).mpr ⟨leading, digits⟩
  have sign : Sign.positive / Sign.positive = .positive := rfl
  have low : min (e - t) (max (((52 : ℕ) : ℤ) + 1 + e - ((52 : ℕ) + 1 + t) - 53) (-1074)) =
      e - t - 53 := by omega
  have shift : (e - t - (e - t - 53)).toNat = 53 := by omega
  have whole : m * 2 ^ 53 = m * 2 ^ 1 * 2 ^ 52 := by omega
  have exact : accuracyOfFraction (m * 2 ^ 53 % 2 ^ 52) (2 ^ 52) = .exact := by
    rw [whole, Nat.mul_mod_left]
    rfl
  rw [rational?_positive, Option.some_inj] at value
  simp only [UnpackedFloat.div, divCore, sign, targetExponent_binary64, totalExponent, log,
    Nat.log2_two_pow, low, shift, Nat.shiftLeft_eq, exact]
  rw [whole, Nat.mul_div_cancel _ (by decide), rational?_roundWithAccuracy _ _ (by omega),
    nearest_mul_two_pow 1 leading, nearest_eq digits, Sign.apply, ← value, zpow_sub₀ two_ne_zero,
    zpow_sub₀ two_ne_zero]
  push_cast
  congr 1
  field_simp
  norm_num

/-- A count is divided by a power of two without further rounding. -/
theorem value?_div_power {b : ℕ} {y : Float} {t : ℤ}
    (power : number y = .finite .positive (2 ^ 52) t (by decide)) (least : -52 ≤ t)
    (range : t ≤ 900)
    (small : k ≤ 2 ^ b) (room : b ≤ maxDigits) :
    value? (Float.ofNat k / y) = some ((nearest k : ℚ) / (2 ^ 52 * 2 ^ t)) := by
  have limit : (b : ℤ) ≤ 970 := by
    unfold maxDigits at room
    omega
  have divisor : AtLeastOne (number y) := by
    rw [power]
    exact .finite _ (by decide) (by decide) least
  obtain rfl | positive := Nat.eq_zero_or_pos k
  · have zero : number (Float.ofNat 0) = .zero .positive := rfl
    have within : Within b .positive (number (Float.ofNat 0)) := zero ▸ .zero .positive
    rw [value?, number_div limit (within_div (by omega) within divisor), power, zero,
      nearest_eq (by decide), Nat.cast_zero, zero_div]
    rfl
  · obtain ⟨within, large⟩ := stored_ofNat positive small room
    rw [value?, number_div limit (within_div (by omega) within divisor), power,
      rational?_div_power large range (value?_ofNat small room)]

/-! ## Comparison -/

section Comparison

variable {f : ℤ}

/-- Of two stored numbers the one with the larger exponent is larger. -/
theorem IsStored.lt_of_exponent_lt (left : IsStored m e) (right : IsStored n f) (lt : e < f) :
    (m : ℚ) * 2 ^ e < n * 2 ^ f := by
  have leading : 2 ^ 52 ≤ n := right.leading.resolve_right (by have := left.least; omega)
  calc (m : ℚ) * 2 ^ e < 2 ^ 53 * 2 ^ e := by
        have digits : (m : ℚ) < 2 ^ 53 := by exact_mod_cast left.digits
        exact mul_lt_mul_of_pos_right digits (zpow_pos two_pos e)
    _ = 2 ^ 52 * 2 ^ (e + 1) := by
        rw [zpow_add₀ two_ne_zero, zpow_one]
        ring
    _ ≤ 2 ^ 52 * 2 ^ f := by
        have exponents : (2 : ℚ) ^ (e + 1) ≤ 2 ^ f := zpow_le_zpow_right₀ one_le_two lt
        exact mul_le_mul_of_nonneg_left exponents (by positivity)
    _ ≤ n * 2 ^ f := by
        have digits : (2 ^ 52 : ℚ) ≤ n := by exact_mod_cast leading
        exact mul_le_mul_of_nonneg_right digits (zpow_pos two_pos f).le

theorem IsStored.lt_iff (left : IsStored m e) (right : IsStored n f) :
    (compare e f).then (compare m n) = .lt ↔ (m : ℚ) * 2 ^ e < n * 2 ^ f := by
  rw [Ordering.then_eq_lt, Int.compare_eq_lt, Int.compare_eq_eq, Nat.compare_eq_lt]
  rcases lt_trichotomy e f with below | rfl | above
  · exact iff_of_true (.inl below) (left.lt_of_exponent_lt right below)
  · rw [mul_lt_mul_iff_left₀ (zpow_pos two_pos e), Nat.cast_lt]
    omega
  · exact iff_of_false (by omega) (right.lt_of_exponent_lt left above).not_gt

/-- Numbers that are not negative are compared as the rational numbers that they stand for. -/
theorem lt_iff_of_rational? {b c : ℤ} {u v : UnpackedFloat} (left : Within b .positive u)
    (right : Within c .positive v) {p q : ℚ} (hp : rational? u = some p)
    (hq : rational? v = some q) : u.lt v = true ↔ p < q := by
  cases left with
  | zero s =>
    obtain rfl : 0 = p := Option.some.inj hp
    cases right with
    | zero t =>
      obtain rfl : 0 = q := Option.some.inj hq
      exact iff_of_false Bool.false_ne_true (lt_irrefl 0)
    | finite pos =>
      rw [rational?_positive, Option.some_inj] at hq
      subst hq
      exact iff_of_true rfl (mul_pos (Nat.cast_pos.mpr pos) (zpow_pos two_pos _))
  | @finite m e pos stored =>
    rw [rational?_positive, Option.some_inj] at hp
    subst hp
    cases right with
    | zero t =>
      obtain rfl : 0 = q := Option.some.inj hq
      have nonneg : (0 : ℚ) < m * 2 ^ e := mul_pos (Nat.cast_pos.mpr pos) (zpow_pos two_pos _)
      exact iff_of_false Bool.false_ne_true nonneg.not_gt
    | @finite n f pos' stored' =>
      rw [rational?_positive, Option.some_inj] at hq
      subst hq
      rw [← stored.lt_iff stored']
      change (some ((compare e f).then (compare m n)) == some .lt) = true ↔ _
      rw [beq_iff_eq, Option.some_inj]

end Comparison

/-- The smaller of two numbers that are not negative. -/
theorem value?_min {b c : ℕ} {x y : Float} (left : Below true b x) (right : Below true c y)
    {p q : ℚ} (hp : value? x = some p) (hq : value? y = some q) :
    value? (Scalar.min x y) = some (min p q) := by
  obtain ⟨s, sign, left⟩ := left
  obtain rfl := sign rfl
  obtain ⟨t, sign, right⟩ := right
  obtain rfl := sign rfl
  have defined {b : ℤ} {x : Float} (within : Within b .positive (number x)) :
      Scalar.isNaN x = false := by
    change (number x).isNaN = false
    generalize number x = u at within
    cases within <;> rfl
  have order := lt_iff_of_rational? right left hq hp
  rw [Scalar.min, defined left, defined right, scalar_lt_eq]
  simp only [Bool.false_eq_true, if_false, order]
  split_ifs with below
  · rw [hq, min_eq_right below.le]
  · rw [hp, min_eq_left (not_lt.mp below)]

end Nonlocal.Binary64
