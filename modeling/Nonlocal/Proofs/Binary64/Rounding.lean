import Mathlib

/-!
Rounding in binary64 does not cross a power of two.

A double is read as a sign, a mantissa and an exponent, an operation is carried out on these
exactly, and its result is rounded to the 53 digits that are stored. Whatever the rounding does to
the last digit, a number that is at most a power of two stays so (`within_roundWithAccuracy`),
because powers of two are stored exactly. From this follow the two bounds that probabilities rest
on: the sum of one and a number between minus one and one lies between zero and two
(`within_one_add`), and half of it between zero and one (`within_half`). Storing such a number and
reading it again changes nothing (`unpack_pack`).
-/

namespace Nonlocal.Binary64

open Float.Model Float.Model.UnpackedFloat

/-! ## Shifting and rounding a mantissa -/

/-- Is a mantissa with its round and sticky bits at most a whole number? -/
def AtMost (em : ExtendedMantissa) (N : Nat) : Prop :=
  em.mantissa < N ∨ em.mantissa = N ∧ em.roundBit = false ∧ em.stickyBit = false

theorem AtMost.shiftRightOne {em : ExtendedMantissa} {N : Nat} (h : AtMost em (2 * N)) :
    AtMost em.shiftRightOne N := by
  obtain below | ⟨same, round, sticky⟩ := h
  · exact .inl (Nat.div_lt_of_lt_mul below)
  · refine .inr ⟨?_, ?_, ?_⟩
    · change em.mantissa / 2 = N
      omega
    · change (em.mantissa % 2 != 0) = false
      rw [same, Nat.mul_mod_right]
      rfl
    · change (em.roundBit || em.stickyBit) = false
      rw [round, sticky]
      rfl

theorem AtMost.shiftRight {em : ExtendedMantissa} {N : Nat} (k : Nat) (h : AtMost em (2 ^ k * N)) :
    AtMost (em >>> k) N := by
  induction k generalizing N with
  | zero =>
    rw [Nat.pow_zero, Nat.one_mul] at h
    exact h
  | succ k ih =>
    have before : AtMost (em >>> k) (2 * N) := ih (by rwa [← Nat.mul_assoc, ← Nat.pow_succ])
    exact before.shiftRightOne

theorem mantissa_shiftRight (em : ExtendedMantissa) (k : Nat) :
    (em >>> k).mantissa = em.mantissa / 2 ^ k := by
  induction k with
  | zero => exact (Nat.div_one _).symm
  | succ k ih =>
    change (em >>> k).mantissa / 2 = _
    rw [ih, Nat.div_div_eq_div_mul, Nat.pow_succ]

theorem le_roundedMantissa (em : ExtendedMantissa) : em.mantissa ≤ em.roundedMantissa := by
  obtain ⟨m, round, sticky⟩ := em
  cases round <;> cases sticky
  · exact Nat.le_refl m
  · exact Nat.le_refl m
  · exact Nat.le_add_right m (m % 2)
  · exact Nat.le_succ m

/-- Rounding does not cross a whole number. -/
theorem AtMost.roundedMantissa_le {em : ExtendedMantissa} {N : Nat} (h : AtMost em N) :
    em.roundedMantissa ≤ N := by
  obtain ⟨m, round, sticky⟩ := em
  obtain below | ⟨rfl, rfl, rfl⟩ := h
  · have next : m + 1 ≤ N := below
    have step : ExtendedMantissa.roundedMantissa ⟨m, round, sticky⟩ ≤ m + 1 := by
      cases round <;> cases sticky
      · exact Nat.le_succ m
      · exact Nat.le_succ m
      · have parity : m % 2 < 2 := Nat.mod_lt m (by decide)
        exact Nat.add_le_add_left (Nat.le_of_lt_succ parity) m
      · exact Nat.le_refl (m + 1)
    exact Nat.le_trans step next
  · exact Nat.le_refl m

@[simp] theorem mantissa_ofMantissaAndAccuracy (m : Nat) (a : Accuracy) :
    (ExtendedMantissa.ofMantissaAndAccuracy m a).mantissa = m := by
  cases a with
  | exact => rfl
  | inexact o => cases o <;> rfl

theorem AtMost.of_exact {m N : Nat} (h : m ≤ N) :
    AtMost (.ofMantissaAndAccuracy m .exact) N :=
  (Nat.lt_or_eq_of_le h).imp id fun same => ⟨same, rfl, rfl⟩

/-- A quotient with its remainder. -/
theorem AtMost.of_quotient {n d N : Nat} (h : n ≤ d * N) :
    AtMost (.ofMantissaAndAccuracy (n / d) (accuracyOfFraction (n % d) d)) N := by
  by_cases whole : n % d = 0
  · rw [accuracyOfFraction, if_pos whole]
    exact .of_exact (Nat.div_le_of_le_mul h)
  · left
    rw [mantissa_ofMantissaAndAccuracy]
    have below : n < d * N := by
      refine Nat.lt_of_le_of_ne h fun same => whole ?_
      rw [same, Nat.mul_mod_right]
    exact Nat.div_lt_of_lt_mul below

/-! ## Stored forms -/

/-- A mantissa and an exponent as they are stored: with 53 binary digits, or with fewer at the least
exponent. -/
structure IsStored (m : Nat) (e : Int) : Prop where
  digits : m < 2 ^ 53
  least : -1074 ≤ e
  leading : 2 ^ 52 ≤ m ∨ e = -1074

/-- A zero, or a stored number of the sign `s` that is at most `2 ^ b` in magnitude. -/
inductive Within (b : Int) (s : Sign) : UnpackedFloat → Prop
  | zero (t : Sign) : Within b s (.zero t)
  | finite {m : Nat} {e : Int} (pos : 0 < m) (stored : IsStored m e) (exponent_le : e ≤ b)
      (mantissa_le : m ≤ 2 ^ (b - e).toNat) : Within b s (.finite s m e pos)

theorem log2_le_of_le_two_pow {m k : Nat} (h : m ≤ 2 ^ k) : m.log2 ≤ k := by
  by_cases zero : m = 0
  · simp [zero]
  · have leading := Nat.log2_self_le zero
    exact (Nat.pow_le_pow_iff_right (by decide)).mp (Nat.le_trans leading h)

theorem targetExponent_binary64 (t : Int) :
    Format.binary64.targetExponent t = max (t - 53) (-1074) := rfl

theorem targetExponent_eq (m : Nat) (e : Int) :
    Format.binary64.targetExponent (totalExponent m e) = max (m.log2 + e - 52) (-1074) := by
  rw [targetExponent_binary64, totalExponent]
  omega

/-- The digits that a mantissa loses before it is rounded. -/
def excess (m : Nat) (e : Int) : Nat :=
  (max (m.log2 + e - 52) (-1074) - e).toNat

theorem shiftToTargetExponent_eq (m : Nat) (e : Int) (a : Accuracy) :
    shiftToTargetExponent Format.binary64 m e a =
      (ExtendedMantissa.ofMantissaAndAccuracy m a >>> excess m e, e + excess m e) := by
  simp only [shiftToTargetExponent, shiftToExponent, targetExponent_eq, excess]

/-- From the least exponent up these are the digits in excess of 53. -/
theorem excess_eq (m : Nat) {e : Int} (least : -1074 ≤ e) : excess m e = m.log2 - 52 := by
  unfold excess
  omega

/-- A mantissa that rounding has carried to 54 digits is stored with one digit less. -/
theorem stored_carry {b : Int} {r : Nat} {e : Int} (digits : r ≤ 2 ^ 53)
    (least : -1074 ≤ e) (leading : 2 ^ 52 ≤ r ∨ e = -1074) (exponent_le : e ≤ b)
    (mantissa_le : r ≤ 2 ^ (b - e).toNat) :
    IsStored (r / 2 ^ (r.log2 - 52)) (e + (r.log2 - 52 : Nat)) ∧ e + (r.log2 - 52 : Nat) ≤ b ∧
      r / 2 ^ (r.log2 - 52) ≤ 2 ^ (b - (e + (r.log2 - 52 : Nat))).toNat := by
  obtain below | rfl := Nat.lt_or_eq_of_le digits
  · have short : r.log2 - 52 = 0 := by
      have := log2_le_of_le_two_pow digits
      by_cases zero : r = 0
      · simp [zero]
      · have := (Nat.log2_lt zero).mpr below
        omega
    rw [short, Nat.pow_zero, Nat.div_one, Int.natCast_zero, Int.add_zero]
    exact ⟨⟨below, least, leading⟩, exponent_le, mantissa_le⟩
  · have room : 53 ≤ (b - e).toNat := (Nat.pow_le_pow_iff_right (by decide)).mp mantissa_le
    rw [Nat.log2_two_pow]
    refine ⟨⟨by decide, by omega, .inl (by decide)⟩, by omega, ?_⟩
    have halved : 2 ^ 52 ≤ 2 ^ (b - (e + 1)).toNat := Nat.pow_le_pow_right (by decide) (by omega)
    exact halved

/-- A mantissa that is at most a power of two once it is rounded. It must have the digits that are
stored, unless its exponent is the least one or below. -/
theorem within_of_rounded {b : Int} (s : Sign) {m : Nat} {e : Int} {a : Accuracy}
    (leading : 52 ≤ m.log2 ∨ e ≤ -1074) (exponent_le : e + excess m e ≤ b)
    (bound : (ExtendedMantissa.ofMantissaAndAccuracy m a >>> excess m e).roundedMantissa ≤
      2 ^ (b - (e + excess m e)).toNat) :
    Within b s (roundWithAccuracy Format.binary64 s m e a) := by
  rw [roundWithAccuracy, shiftToTargetExponent_eq m e]
  have amount : excess m e = (max (m.log2 + e - 52) (-1074) - e).toNat := rfl
  generalize excess m e = k at *
  generalize shifted : ExtendedMantissa.ofMantissaAndAccuracy m a >>> k = em at *
  have quotient : em.mantissa = m / 2 ^ k := by
    rw [← shifted, mantissa_shiftRight, mantissa_ofMantissaAndAccuracy]
  have digits : m < 2 ^ (k + 53) :=
    Nat.lt_of_lt_of_le Nat.lt_log2_self (Nat.pow_le_pow_right (by decide) (by omega))
  have below : em.mantissa < 2 ^ 53 := by
    rw [quotient]
    apply Nat.div_lt_of_lt_mul
    rwa [← Nat.pow_add]
  have kept : 2 ^ 52 ≤ em.roundedMantissa ∨ e + k = -1074 := by
    by_cases long : 52 ≤ m.log2 ∧ k = m.log2 - 52
    · left
      have positive : m ≠ 0 := by
        rintro rfl
        simp at long
      have whole : 2 ^ 52 ≤ m / 2 ^ k := by
        rw [Nat.le_div_iff_mul_le (Nat.two_pow_pos _), ← Nat.pow_add, long.2,
          Nat.add_sub_cancel' long.1]
        exact Nat.log2_self_le positive
      exact Nat.le_trans (quotient ▸ whole) (le_roundedMantissa em)
    · right
      omega
  have rounded : em.roundedMantissa ≤ 2 ^ 53 :=
    AtMost.roundedMantissa_le (.inl below)
  obtain ⟨stored, exponent, mantissa⟩ := stored_carry rounded (b := b) (by omega) kept exponent_le
    bound
  simp only [shiftToTargetExponent_eq, excess_eq _ (show -1074 ≤ e + (k : Int) by omega),
    mantissa_shiftRight, mantissa_ofMantissaAndAccuracy]
  split
  · exact .zero s
  · exact .finite _ stored exponent mantissa

/-- Rounding does not cross a power of two. -/
theorem within_roundWithAccuracy {b : Int} (s : Sign) {m : Nat} {e : Int} {a : Accuracy}
    (least : -1074 ≤ b) (leading : 52 ≤ m.log2 ∨ e ≤ -1074) (exponent_le : e ≤ b)
    (bound : AtMost (.ofMantissaAndAccuracy m a) (2 ^ (b - e).toNat)) :
    Within b s (roundWithAccuracy Format.binary64 s m e a) := by
  have room : m.log2 ≤ (b - e).toNat := by
    apply log2_le_of_le_two_pow
    rw [← mantissa_ofMantissaAndAccuracy m a]
    exact bound.elim Nat.le_of_lt fun same => Nat.le_of_eq same.1
  have amount : excess m e = (max (m.log2 + e - 52) (-1074) - e).toNat := rfl
  have within : AtMost (ExtendedMantissa.ofMantissaAndAccuracy m a >>> excess m e)
      (2 ^ (b - (e + excess m e)).toNat) := by
    apply AtMost.shiftRight
    have split : (b - e).toNat = excess m e + (b - (e + excess m e)).toNat := by omega
    rwa [← Nat.pow_add, ← split]
  exact within_of_rounded s leading (by omega) within.roundedMantissa_le

theorem le_log2_of_two_pow_le {m k : Nat} (h : 2 ^ k ≤ m) : k ≤ m.log2 :=
  (Nat.le_log2 (Nat.ne_of_gt (Nat.lt_of_lt_of_le (Nat.two_pow_pos k) h))).mpr h

theorem within_round {b : Int} (s : Sign) {m : Nat} (pos : 0 < m) {e : Int} (least : -1074 ≤ e)
    (exponent_le : e ≤ b) (mantissa_le : m ≤ 2 ^ (b - e).toNat) :
    Within b s (UnpackedFloat.round Format.binary64 s m e) := by
  simp only [UnpackedFloat.round, decreaseExponent, targetExponent_eq]
  generalize shift : (e - max (m.log2 + e - 52) (-1074)).toNat = k
  rw [Nat.shiftLeft_eq]
  apply within_roundWithAccuracy s (by omega) _ (by omega) (.of_exact _)
  · by_cases short : k = 52 - m.log2
    · left
      apply le_log2_of_two_pow_le
      calc 2 ^ 52 ≤ 2 ^ (m.log2 + k) := Nat.pow_le_pow_right (by decide) (by omega)
        _ = 2 ^ m.log2 * 2 ^ k := Nat.pow_add ..
        _ ≤ m * 2 ^ k := Nat.mul_le_mul_right _ (Nat.log2_self_le (Nat.ne_of_gt pos))
    · right
      omega
  · have room : (b - (e - (k : Int))).toNat = (b - e).toNat + k := by omega
    rw [room, Nat.pow_add]
    exact Nat.mul_le_mul_right _ mantissa_le

theorem within_normalize {b : Int} {M : Int} {e : Int} (nonneg : 0 ≤ M) (least : -1074 ≤ e)
    (exponent_le : e ≤ b) (bound : M ≤ (2 ^ (b - e).toNat : Nat)) :
    Within b .positive (UnpackedFloat.normalize Format.binary64 M e .positive) := by
  unfold UnpackedFloat.normalize
  split
  · next negative =>
    rw [Int.compare_eq_lt] at negative
    omega
  · exact .zero .positive
  · next positive =>
    rw [Int.compare_eq_gt] at positive
    exact within_round .positive (by omega) least exponent_le (by omega)

/-! ## Sums and halves -/

/-- The number one. -/
def one (s : Sign) : UnpackedFloat :=
  .finite s (2 ^ 52) (-52) (by decide)

/-- The number two. -/
def two : UnpackedFloat :=
  .finite .positive (2 ^ 52) (-51) (by decide)

/-- Stored numbers have exponents far below their magnitude. -/
theorem IsStored.exponent_le {b : Int} {m : Nat} {e : Int} (stored : IsStored m e) (hb : -1022 ≤ b)
    (mantissa_le : m ≤ 2 ^ (b - e).toNat) : e ≤ b - 52 := by
  obtain leading | rfl := stored.leading
  · have := (Nat.pow_le_pow_iff_right (by decide)).mp (Nat.le_trans leading mantissa_le)
    omega
  · omega

/-- One and a number between minus one and one have a sum between zero and two. -/
theorem within_one_add {s : Sign} {u : UnpackedFloat} (h : Within 0 s u) :
    Within 1 .positive (UnpackedFloat.add Format.binary64 (one .positive) u) := by
  cases h with
  | zero t => exact .finite _ ⟨by decide, by decide, .inl (by decide)⟩ (by decide) (by decide)
  | @finite m e pos stored exponent_le mantissa_le =>
    have low := stored.exponent_le (by decide) mantissa_le
    have least := stored.least
    have smaller : min (-52) e = e := by omega
    have aligned : 52 + (-52 - e).toNat = (0 - e).toNat := by omega
    have doubled : 2 ^ (1 - e).toNat = 2 * 2 ^ (0 - e).toNat := by
      rw [show (1 - e).toNat = (0 - e).toNat + 1 by omega, Nat.pow_succ, Nat.mul_comm]
    simp only [UnpackedFloat.add, one, decreaseExponent, smaller, Int.sub_self, Int.toNat_zero,
      Nat.shiftLeft_eq, ← Nat.pow_add, aligned]
    generalize 2 ^ (0 - e).toNat = unit at *
    apply within_normalize _ least (by omega)
    · rw [doubled]
      cases s <;> simp only [Sign.apply] <;> omega
    · cases s <;> simp only [Sign.apply] <;> omega

/-- Half of a number between minus two and two is between minus one and one. -/
theorem within_half {s : Sign} {u : UnpackedFloat} (h : Within 1 s u) :
    Within 0 s (UnpackedFloat.div Format.binary64 u two) := by
  cases h with
  | zero t => exact .zero _
  | @finite m e pos stored exponent_le mantissa_le =>
    have low := stored.exponent_le (by decide) mantissa_le
    have least := stored.least
    have sign : s / .positive = s := by cases s <;> rfl
    -- Stored mantissas have 53 digits wherever the exponent is not the least one, so that the
    -- quotient keeps one digit more than is stored.
    have target : min (e - -51)
        (Format.binary64.targetExponent (totalExponent m e - totalExponent (2 ^ 52) (-51))) =
        max (e - 2) (-1074) := by
      have digits : m.log2 ≤ 52 :=
        Nat.le_of_lt_succ ((Nat.log2_lt (Nat.ne_of_gt pos)).mpr stored.digits)
      have full : 52 ≤ m.log2 ∨ e = -1074 := stored.leading.imp_left le_log2_of_two_pow_le
      rw [targetExponent_binary64, totalExponent, totalExponent, Nat.log2_two_pow]
      omega
    simp only [UnpackedFloat.div, two, divCore, sign, target, Nat.shiftLeft_eq]
    generalize shift : (e - -51 - max (e - 2) (-1074)).toNat = k
    apply within_roundWithAccuracy s (by omega) _ (by omega) (.of_quotient _)
    · by_cases least_exponent : max (e - 2) (-1074) = -1074
      · exact .inr (Int.le_of_eq least_exponent)
      · left
        have leading : 2 ^ 52 ≤ m := stored.leading.resolve_right (by omega)
        have amount : k = 53 := by omega
        apply le_log2_of_two_pow_le
        rw [amount]
        omega
    · have room : (1 - e).toNat + k = 52 + (0 - max (e - 2) (-1074)).toNat := by omega
      rw [← Nat.pow_add, ← room, Nat.pow_add]
      exact Nat.mul_le_mul_right _ mantissa_le

/-! ## Storing and reading -/

theorem unpackSign_packComponents (s : Sign) (exponent : BitVec 11) (mantissa : BitVec 52) :
    unpackSign (packComponents .binary64 s exponent mantissa) = s.toBitVec := by
  have first : (s.toBitVec ++ exponent ++ mantissa).getLsbD 63 = s.toBitVec.getLsbD 0 := by
    rw [BitVec.getLsbD_append, if_neg (by decide), BitVec.getLsbD_append, if_neg (by decide)]
  apply BitVec.eq_of_getLsbD_eq
  intro i hi
  obtain rfl : i = 0 := by omega
  rw [← first, unpackSign, BitVec.getLsbD_cast, BitVec.getLsbD_extractLsb]
  rfl

theorem ofBitVec_toBitVec (s : Sign) : Sign.ofBitVec s.toBitVec = s := by
  cases s <;> rfl

theorem toNat_one_append (v : BitVec 52) : (1#1 ++ v).toNat = 2 ^ 52 + v.toNat := by
  have digits := Nat.shiftLeft_add_eq_or_of_lt v.isLt 1
  rw [BitVec.toNat_append]
  exact digits.symm

/-- The number of a sign, an exponent field and a mantissa field. -/
def ofFields (s : Sign) (exponent : BitVec 11) (mantissa : BitVec 52) : UnpackedFloat :=
  if exponent = -1#11 then if mantissa = 0#52 then .infinity s else .notANumber
  else if exponent = 0#11 then
    if h : mantissa = 0#52 then .zero s
    else .finite s mantissa.toNat (-1074) (Nat.pos_of_ne_zero fun zero =>
      h (BitVec.eq_of_toNat_eq zero))
  else .finite s (2 ^ 52 + mantissa.toNat) (exponent.toNat - 1075)
    (Nat.add_pos_left (by decide) _)

theorem unpack_eq (bits : BitVec 64) :
    UnpackedFloat.unpack .binary64 bits =
      ofFields (Sign.ofBitVec (@unpackSign .binary64 bits))
        (@unpackExponent .binary64 bits) (@unpackMantissa .binary64 bits) := by
  simp only [UnpackedFloat.unpack, ofFields]
  split
  · rfl
  · split
    · next zero =>
      split
      · rfl
      · congr 1
        rw [zero]
        rfl
    · congr 1
      exact toNat_one_append _

/-- What is read is in stored form. -/
theorem isStored_of_unpack {bits : BitVec 64} {s : Sign} {m : Nat} {e : Int} {pos : 0 < m}
    (read : UnpackedFloat.unpack .binary64 bits = .finite s m e pos) : IsStored m e := by
  rw [unpack_eq] at read
  generalize @unpackExponent .binary64 bits = exponent at read
  generalize @unpackMantissa .binary64 bits = mantissa at read
  have digits : mantissa.toNat < 2 ^ 52 := mantissa.isLt
  unfold ofFields at read
  split at read
  · split at read <;> cases read
  · split at read
    · split at read
      · cases read
      · injection read with _ same least
        exact ⟨by omega, by omega, .inr least.symm⟩
    · next nonzero =>
      injection read with _ same shifted
      have : exponent.toNat ≠ 0 := fun zero => nonzero (BitVec.eq_of_toNat_eq zero)
      exact ⟨by omega, by omega, .inl (by omega)⟩

/-- What is read is below the largest exponent. -/
theorem exponent_le_of_unpack {bits : BitVec 64} {s : Sign} {m : Nat} {e : Int} {pos : 0 < m}
    (read : UnpackedFloat.unpack .binary64 bits = .finite s m e pos) : e ≤ 971 := by
  rw [unpack_eq] at read
  generalize @unpackExponent .binary64 bits = exponent at read
  generalize @unpackMantissa .binary64 bits = mantissa at read
  unfold ofFields at read
  split at read
  · split at read <;> cases read
  · next not_top =>
    have below : exponent.toNat ≠ 2047 := fun top => not_top (BitVec.eq_of_toNat_eq top)
    have range : exponent.toNat < 2 ^ 11 := exponent.isLt
    split at read
    · split at read
      · cases read
      · injection read with _ _ least
        omega
    · injection read with _ _ shifted
      omega

theorem unpack_packComponents (s : Sign) (exponent : BitVec 11) (mantissa : BitVec 52) :
    UnpackedFloat.unpack .binary64 (packComponents .binary64 s exponent mantissa) =
      ofFields s exponent mantissa := by
  rw [unpack_eq, unpackSign_packComponents, ofBitVec_toBitVec, unpackExponent_packComponents,
    unpackMantissa_packComponents]

theorem unpack_pack_finite {s : Sign} {m : Nat} {e : Int} {pos : 0 < m} (stored : IsStored m e)
    (le : e ≤ 971) :
    UnpackedFloat.unpack .binary64 (UnpackedFloat.pack .binary64 (.finite s m e pos)) =
      .finite s m e pos := by
  obtain ⟨digits, least, leading⟩ := stored
  have bias : e + (Format.binary64.exponentBias : Int) +
      (Format.binary64.mantissaBitsWithoutImplicit : Int) = e + 1075 := by
    change e + 1023 + 52 = e + 1075
    omega
  have room : ¬2 ^ Format.binary64.exponentBits ≤ (e + 1075).toNat + 1 := by
    change ¬2 ^ 11 ≤ _
    omega
  have width : Format.binary64.mantissaBits = 53 := rfl
  rw [UnpackedFloat.pack]
  simp only [bias, room, width, if_false]
  by_cases full : 2 ^ 52 ≤ m
  · have log : m.log2 = 52 := (Nat.log2_eq_iff (Nat.ne_of_gt pos)).mpr ⟨full, digits⟩
    have field : (BitVec.ofNat 11 (e + 1075).toNat).toNat = (e + 1075).toNat :=
      Nat.mod_eq_of_lt (by omega)
    have rest : (BitVec.ofNat 52 m).toNat = m - 2 ^ 52 := by
      rw [BitVec.toNat_ofNat]
      omega
    have not_top : BitVec.ofNat 11 (e + 1075).toNat ≠ -1#11 := fun top => by
      have value : (e + 1075).toNat = 2047 := field.symm.trans (congrArg BitVec.toNat top)
      omega
    have not_bottom : BitVec.ofNat 11 (e + 1075).toNat ≠ 0#11 := fun bottom => by
      have value : (e + 1075).toNat = 0 := field.symm.trans (congrArg BitVec.toNat bottom)
      omega
    rw [if_pos (by omega), unpack_packComponents, ofFields, if_neg not_top, if_neg not_bottom]
    congr 1
    · omega
    · omega
  · obtain rfl : e = -1074 := leading.resolve_left full
    have log : m.log2 < 52 := (Nat.log2_lt (Nat.ne_of_gt pos)).mpr (Nat.lt_of_not_le full)
    have field : (BitVec.ofNat 52 m).toNat = m := Nat.mod_eq_of_lt (by omega)
    have nonzero : BitVec.ofNat 52 m ≠ 0#52 := fun zero => by
      have value : m = 0 := field.symm.trans (congrArg BitVec.toNat zero)
      omega
    rw [if_neg (by omega), unpack_packComponents, ofFields, if_neg (by decide), if_pos rfl,
      dif_neg nonzero]
    congr 1

/-- A number that is not too large is read as it was stored. -/
theorem unpack_pack {b : Int} {s : Sign} {u : UnpackedFloat} (h : Within b s u) (hb : b ≤ 970) :
    UnpackedFloat.unpack .binary64 (UnpackedFloat.pack .binary64 u) = u := by
  cases h with
  | zero t => cases t <;> rfl
  | finite _ stored exponent_le _ => exact unpack_pack_finite stored (by omega)

end Nonlocal.Binary64
