import Nonlocal.Proofs.Binary64.Rounding

/-!
Magnitudes of binary64 results.

The result of an operation is at most the power of two that bounds its exact value: rounding does not
cross it. A sum may even exceed the power of two by less than half a digit, so that the sum of any
number of small terms stays bounded (`within_add_small`).
-/

namespace Nonlocal.Binary64

open Float.Model Float.Model.UnpackedFloat

variable {b c : Int} {s t : Sign} {u v : UnpackedFloat}

theorem Within.mono (h : Within b s u) (le : b ≤ c) : Within c s u := by
  cases h with
  | zero t => exact .zero t
  | finite pos stored exponent_le mantissa_le =>
    refine .finite pos stored (by omega) (Nat.le_trans mantissa_le ?_)
    exact Nat.pow_le_pow_right (by decide) (by omega)

theorem within_neg (h : Within b s u) : Within b (-s) u.neg := by
  cases h with
  | zero t => exact .zero (-t)
  | finite pos stored exponent_le mantissa_le => exact .finite pos stored exponent_le mantissa_le

/-! ## Sums -/

theorem roundedMantissa_of_roundBit {em : ExtendedMantissa} (even : em.roundBit = false) :
    em.roundedMantissa = em.mantissa := by
  obtain ⟨m, round, sticky⟩ := em
  cases even
  cases sticky <;> rfl

theorem roundBit_shiftRight (em : ExtendedMantissa) (k : Nat) :
    (em >>> (k + 1)).roundBit = (em.mantissa / 2 ^ k % 2 != 0) := by
  change ((em >>> k).mantissa % 2 != 0) = _
  rw [mantissa_shiftRight]

/-- A mantissa may exceed a power of two by less than half a digit. -/
theorem within_round_slack (s : Sign) {m : Nat} (pos : 0 < m) {e : Int} (least : -1074 ≤ e)
    (room : e + 60 ≤ b) (bound : m ≤ 2 ^ (b - e).toNat + 2 ^ (b - 60 - e).toNat) :
    Within b s (UnpackedFloat.round Format.binary64 s m e) := by
  by_cases small : m ≤ 2 ^ (b - e).toNat
  · exact within_round s pos least (by omega) small
  · obtain ⟨k, amount⟩ : ∃ k : Nat, b - 52 - e = k + 1 := ⟨(b - 53 - e).toNat, by omega⟩
    have above : (b - e).toNat = 53 + k := by omega
    have slack : 2 ^ (b - 60 - e).toNat < 2 ^ k := Nat.pow_lt_pow_right (by decide) (by omega)
    rw [above, Nat.pow_add] at small bound
    have log : m.log2 = 53 + k := by
      rw [Nat.log2_eq_iff (Nat.ne_of_gt pos), Nat.pow_succ, Nat.pow_add]
      omega
    have lost : excess m e = k + 1 := by
      rw [excess, log]
      omega
    simp only [UnpackedFloat.round, decreaseExponent, targetExponent_eq, log]
    have unshifted : (e - max (((53 + k : Nat) : Int) + e - 52) (-1074)).toNat = 0 := by omega
    rw [unshifted, Nat.shiftLeft_zero, Int.natCast_zero, Int.sub_zero]
    apply within_of_rounded s (.inl (by omega)) (by omega)
    have digits : m / 2 ^ k = 2 ^ 53 := Nat.div_eq_of_lt_le (by omega) (by omega)
    have even : (ExtendedMantissa.ofMantissaAndAccuracy m .exact >>> excess m e).roundBit =
        false := by
      rw [lost, roundBit_shiftRight, mantissa_ofMantissaAndAccuracy, digits]
      rfl
    have unit : (b - (e + (k + 1 : Nat))).toNat = 52 := by omega
    rw [roundedMantissa_of_roundBit even, lost, mantissa_shiftRight,
      mantissa_ofMantissaAndAccuracy, Nat.pow_succ, ← Nat.div_div_eq_div_mul, digits, unit]
    decide

/-- A signed mantissa is rounded with its sign. -/
theorem within_normalize_of_natAbs {M : Int} {e : Int}
    (rounds : ∀ r, 0 < M.natAbs → Within b r (UnpackedFloat.round Format.binary64 r M.natAbs e)) :
    ∃ r, (0 ≤ M → r = .positive) ∧
      Within b r (UnpackedFloat.normalize Format.binary64 M e .positive) := by
  unfold UnpackedFloat.normalize
  split
  · next negative =>
    rw [Int.compare_eq_lt] at negative
    have magnitude : (-M).toNat = M.natAbs := by omega
    refine ⟨.negative, fun nonneg => by omega, ?_⟩
    rw [magnitude]
    exact rounds .negative (by omega)
  · exact ⟨.positive, fun _ => rfl, .zero .positive⟩
  · next positive =>
    rw [Int.compare_eq_gt] at positive
    have magnitude : M.toNat = M.natAbs := by omega
    refine ⟨.positive, fun _ => rfl, ?_⟩
    rw [magnitude]
    exact rounds .positive (by omega)

/-- A mantissa that is written with a smaller exponent. -/
theorem aligned_le {m : Nat} {e e' : Int} (lower : e' ≤ e) (exponent_le : e ≤ b)
    (mantissa_le : m ≤ 2 ^ (b - e).toNat) : m <<< (e - e').toNat ≤ 2 ^ (b - e').toNat := by
  have digits : (b - e').toNat = (b - e).toNat + (e - e').toNat := by omega
  rw [Nat.shiftLeft_eq, digits, Nat.pow_add]
  exact Nat.mul_le_mul_right _ mantissa_le

theorem natAbs_signed_add_le (s t : Sign) (m n : Nat) :
    (s.apply m + t.apply n).natAbs ≤ m + n := by
  cases s <;> cases t <;> simp only [Sign.apply] <;> omega

theorem signed_add_nonneg (positive : s = .positive ∧ t = .positive) (m n : Nat) :
    0 ≤ s.apply m + t.apply n := by
  obtain ⟨rfl, rfl⟩ := positive
  simp only [Sign.apply]
  omega

/-- A sum is as large as the sum of the magnitudes once it is rounded. -/
theorem within_add_of_rounds {d : Int} (hu : Within b s u) (hv : Within c t v) (left_le : b ≤ d)
    (right_le : c ≤ d)
    (rounds : ∀ (r : Sign) (m : Nat) (e : Int), 0 < m → -1074 ≤ e → e ≤ b → e ≤ c →
      m ≤ 2 ^ (b - e).toNat + 2 ^ (c - e).toNat →
      Within d r (UnpackedFloat.round Format.binary64 r m e)) :
    ∃ r, (s = .positive ∧ t = .positive → r = .positive) ∧
      Within d r (UnpackedFloat.add Format.binary64 u v) := by
  cases hu with
  | zero s' =>
    cases hv with
    | zero t' =>
      refine ⟨.positive, fun _ => rfl, ?_⟩
      cases s' <;> cases t' <;> exact .zero _
    | finite pos stored exponent_le mantissa_le =>
      exact ⟨t, And.right, (Within.finite pos stored exponent_le mantissa_le).mono right_le⟩
  | @finite m e pos stored exponent_le mantissa_le =>
    cases hv with
    | zero t' =>
      exact ⟨s, And.left, (Within.finite pos stored exponent_le mantissa_le).mono left_le⟩
    | @finite n f pos' stored' exponent_le' mantissa_le' =>
      have least : -1074 ≤ min e f := Int.le_min.mpr ⟨stored.least, stored'.least⟩
      simp only [UnpackedFloat.add, decreaseExponent]
      generalize low : min e f = lower at *
      have left : m <<< (e - lower).toNat ≤ 2 ^ (b - lower).toNat :=
        aligned_le (by omega) exponent_le mantissa_le
      have right : n <<< (f - lower).toNat ≤ 2 ^ (c - lower).toNat :=
        aligned_le (by omega) exponent_le' mantissa_le'
      generalize m <<< (e - lower).toNat = m at *
      generalize n <<< (f - lower).toNat = n at *
      obtain ⟨r, sign, sum⟩ := within_normalize_of_natAbs fun r positive =>
        rounds r (s.apply m + t.apply n).natAbs lower positive least (by omega) (by omega)
          (Nat.le_trans (natAbs_signed_add_le s t m n) (Nat.add_le_add left right))
      exact ⟨r, fun both => sign (signed_add_nonneg both m n), sum⟩

/-- A sum is at most twice the larger magnitude. -/
theorem within_add (hu : Within b s u) (hv : Within b t v) :
    ∃ r, (s = .positive ∧ t = .positive → r = .positive) ∧
      Within (b + 1) r (UnpackedFloat.add Format.binary64 u v) := by
  refine within_add_of_rounds hu hv (by omega) (by omega) ?_
  intro r m e pos least exponent_le _ bound
  have doubled : (b + 1 - e).toNat = (b - e).toNat + 1 := by omega
  refine within_round r pos least (by omega) ?_
  rw [doubled, Nat.pow_succ]
  omega

/-- A small term does not carry a sum past the bound of the terms before it. -/
theorem within_add_small (hu : Within (b + 60) s u) (hv : Within b t v) :
    ∃ r, (s = .positive ∧ t = .positive → r = .positive) ∧
      Within (b + 60) r (UnpackedFloat.add Format.binary64 u v) := by
  refine within_add_of_rounds hu hv (by omega) (by omega) ?_
  intro r m e pos least _ exponent_le bound
  refine within_round_slack r pos least (by omega) ?_
  rwa [Int.add_sub_cancel]

theorem sub_eq_add_neg (u v : UnpackedFloat) :
    UnpackedFloat.sub Format.binary64 u v = UnpackedFloat.add Format.binary64 u v.neg := by
  have apply_neg (s t : Sign) (m n : Int) : s.apply m - t.apply n = s.apply m + (-t).apply n := by
    cases t
    · exact Int.sub_neg _ _
    · rfl
  cases u <;> cases v <;> try rfl
  simp only [UnpackedFloat.sub, UnpackedFloat.add, UnpackedFloat.neg, apply_neg]

/-- One minus a number between zero and one is between zero and one. -/
theorem within_one_sub (h : Within 0 .positive u) :
    Within 0 .positive (UnpackedFloat.sub Format.binary64 (one .positive) u) := by
  cases h with
  | zero t =>
    exact .finite _ ⟨by decide, by decide, .inl (by decide)⟩ (by decide) (by decide)
  | @finite m e pos stored exponent_le mantissa_le =>
    have low := stored.exponent_le (by decide) mantissa_le
    have least := stored.least
    have smaller : min (-52) e = e := by omega
    have aligned : 52 + (-52 - e).toNat = (0 - e).toNat := by omega
    simp only [UnpackedFloat.sub, one, decreaseExponent, smaller, Int.sub_self, Int.toNat_zero,
      Nat.shiftLeft_eq, ← Nat.pow_add, aligned]
    generalize room : 2 ^ (0 - e).toNat = unit at *
    apply within_normalize _ least (by omega)
    · rw [room]
      simp only [Sign.apply]
      omega
    · simp only [Sign.apply]
      omega

/-! ## Numbers that are at least one -/

/-- A stored number that is at least one. -/
inductive AtLeastOne : UnpackedFloat → Prop
  | finite {m : Nat} {e : Int} (pos : 0 < m) (leading : 2 ^ 52 ≤ m) (digits : m < 2 ^ 53)
      (exponent : -52 ≤ e) : AtLeastOne (.finite .positive m e pos)

/-- A mantissa with all digits is not lost when it is rounded. -/
theorem exists_roundWithAccuracy (s : Sign) {m : Nat} {e : Int} (a : Accuracy)
    (least : -1074 ≤ e) (long : 52 ≤ m.log2) :
    ∃ m' e' pos, roundWithAccuracy Format.binary64 s m e a = .finite s m' e' pos ∧
      e + (m.log2 - 52 : Nat) ≤ e' := by
  have quotient_ne_zero {m : Nat} (nonzero : m ≠ 0) (e : Int) (least : -1074 ≤ e) :
      m / 2 ^ excess m e ≠ 0 := by
    rw [excess_eq m least]
    refine Nat.ne_of_gt (Nat.div_pos ?_ (Nat.two_pow_pos _))
    exact Nat.le_trans (Nat.pow_le_pow_right (by decide) (Nat.sub_le _ _))
      (Nat.log2_self_le nonzero)
  have positive : m ≠ 0 := by
    rintro rfl
    simp at long
  have rounded :
      (ExtendedMantissa.ofMantissaAndAccuracy m a >>> excess m e).roundedMantissa ≠ 0 := by
    apply Nat.ne_of_gt
    refine Nat.lt_of_lt_of_le ?_ (le_roundedMantissa _)
    rw [mantissa_shiftRight, mantissa_ofMantissaAndAccuracy]
    exact Nat.pos_of_ne_zero (quotient_ne_zero positive e least)
  have whole := quotient_ne_zero rounded (e + excess m e) (by omega)
  have lost := excess_eq m least
  simp only [roundWithAccuracy, shiftToTargetExponent_eq, mantissa_shiftRight,
    mantissa_ofMantissaAndAccuracy]
  rw [dif_neg whole]
  exact ⟨_, _, Nat.pos_of_ne_zero whole, rfl, by omega⟩

theorem atLeastOne_round {m : Nat} {e : Int} (a : Accuracy) (least : -1074 ≤ e)
    (long : 52 ≤ m.log2) (large : 0 ≤ m.log2 + e) :
    AtLeastOne (roundWithAccuracy Format.binary64 .positive m e a) := by
  have stored : Within (e + (m.log2 + 1 : Nat)) .positive
      (roundWithAccuracy Format.binary64 .positive m e a) := by
    refine within_roundWithAccuracy .positive (by omega) (.inl long) (by omega) (.inl ?_)
    have room : (e + (m.log2 + 1 : Nat) - e).toNat = m.log2 + 1 := by omega
    rw [mantissa_ofMantissaAndAccuracy, room]
    exact Nat.lt_log2_self
  obtain ⟨m', e', pos, same, lower⟩ := exists_roundWithAccuracy .positive a least long
  rw [same] at stored ⊢
  cases stored with
  | finite _ form _ _ =>
    exact .finite pos (form.leading.resolve_right (by omega)) form.digits (by omega)

theorem AtLeastOne.mul_one (h : AtLeastOne u) :
    AtLeastOne (UnpackedFloat.mul Format.binary64 u (one .positive)) := by
  cases h with
  | @finite m e pos leading digits exponent =>
    have log : (m * 2 ^ 52).log2 = 104 := by
      rw [Nat.log2_eq_iff (by omega)]
      omega
    exact atLeastOne_round .exact (by omega) (by omega) (by omega)

/-! ## Products and quotients -/

theorem within_mul (least : 0 ≤ b) (least' : 0 ≤ c) (hu : Within b s u) (hv : Within c t v) :
    Within (b + c) (s * t) (UnpackedFloat.mul Format.binary64 u v) := by
  cases hu with
  | zero s' => cases hv <;> exact .zero _
  | @finite m e pos stored exponent_le mantissa_le =>
    cases hv with
    | zero t' => exact .zero _
    | @finite n f pos' stored' exponent_le' mantissa_le' =>
      have digits : (b + c - (e + f)).toNat = (b - e).toNat + (c - f).toNat := by omega
      apply within_roundWithAccuracy _ (by omega) _ (by omega) (.of_exact _)
      · obtain leading | rfl := stored.leading
        · left
          exact le_log2_of_two_pow_le (Nat.le_trans leading (Nat.le_mul_of_pos_right m pos'))
        · obtain leading' | rfl := stored'.leading
          · left
            exact le_log2_of_two_pow_le (Nat.le_trans leading' (Nat.le_mul_of_pos_left n pos))
          · right
            decide
      · rw [digits, Nat.pow_add]
        exact Nat.mul_le_mul mantissa_le mantissa_le'

/-- A divisor that is at least one does not enlarge a number. -/
theorem within_div (least : -1074 ≤ b) (hu : Within b s u) (hv : AtLeastOne v) :
    Within b s (UnpackedFloat.div Format.binary64 u v) := by
  obtain @⟨m, e, pos, leading, digits, large⟩ := hv
  cases hu with
  | zero s' => exact .zero _
  | @finite n f pos' stored exponent_le mantissa_le =>
    have sign : s / .positive = s := by cases s <;> rfl
    have log : m.log2 = 52 := (Nat.log2_eq_iff (Nat.ne_of_gt pos)).mpr ⟨leading, digits⟩
    have short : n.log2 ≤ 52 :=
      Nat.le_of_lt_succ ((Nat.log2_lt (Nat.ne_of_gt pos')).mpr stored.digits)
    have room : n.log2 ≤ (b - f).toNat := log2_le_of_le_two_pow mantissa_le
    simp only [UnpackedFloat.div, divCore, sign, targetExponent_binary64, totalExponent, log,
      Nat.shiftLeft_eq]
    generalize low : min (f - e)
      (max ((n.log2 : Int) + 1 + f - ((52 : Nat) + 1 + e) - 53) (-1074)) = lower
    generalize shift : (f - e - lower).toNat = k
    apply within_roundWithAccuracy s least _ _ (.of_quotient _)
    · by_cases least_exponent : lower ≤ -1074
      · exact .inr least_exponent
      · left
        apply le_log2_of_two_pow_le
        have amount : n.log2 + k = 105 := by omega
        rw [Nat.le_div_iff_mul_le pos]
        calc 2 ^ 52 * m ≤ 2 ^ 52 * 2 ^ 53 := Nat.mul_le_mul_left _ (Nat.le_of_lt digits)
          _ = 2 ^ n.log2 * 2 ^ k := by rw [← Nat.pow_add, ← Nat.pow_add, amount]
          _ ≤ n * 2 ^ k := Nat.mul_le_mul_right _ (Nat.log2_self_le (Nat.ne_of_gt pos'))
    · omega
    · have exponents : (b - f).toNat + k ≤ 52 + (b - lower).toNat := by omega
      calc n * 2 ^ k ≤ 2 ^ (b - f).toNat * 2 ^ k := Nat.mul_le_mul_right _ mantissa_le
        _ = 2 ^ ((b - f).toNat + k) := (Nat.pow_add ..).symm
        _ ≤ 2 ^ (52 + (b - lower).toNat) := Nat.pow_le_pow_right (by decide) exponents
        _ = 2 ^ 52 * 2 ^ (b - lower).toNat := Nat.pow_add ..
        _ ≤ m * 2 ^ (b - lower).toNat := Nat.mul_le_mul_right _ leading

/-! ## Roots -/

/-- A root with its remainder. -/
theorem AtMost.of_root {m N : Nat} (h : m ≤ N * N) :
    AtMost (.ofMantissaAndAccuracy m.sqrt (if m - m.sqrt * m.sqrt = 0 then .exact
      else .inexact (if m - m.sqrt * m.sqrt ≤ m.sqrt then .lt else .gt))) N := by
  have root_le : m.sqrt ≤ N := by
    have := Nat.sqrt_le_sqrt h
    rwa [Nat.sqrt_eq] at this
  obtain below | rfl := Nat.lt_or_eq_of_le root_le
  · left
    rwa [mantissa_ofMantissaAndAccuracy]
  · rw [if_pos (Nat.sub_eq_zero_of_le h)]
    exact .of_exact (Nat.le_refl _)

theorem within_sqrt (least : 0 ≤ b) (hu : Within b .positive u) :
    Within b .positive (UnpackedFloat.sqrt Format.binary64 u) := by
  cases hu with
  | zero s' => exact .zero _
  | @finite m e pos stored exponent_le mantissa_le =>
    have lower := stored.least
    have short : m.log2 ≤ 52 :=
      Nat.le_of_lt_succ ((Nat.log2_lt (Nat.ne_of_gt pos)).mpr stored.digits)
    have room : m.log2 ≤ (b - e).toNat := log2_le_of_le_two_pow mantissa_le
    simp only [UnpackedFloat.sqrt, sqrtCore, targetExponent_binary64, totalExponent,
      Nat.shiftLeft_eq]
    generalize low : min (e.ediv 2)
      (max (((m.log2 : Int) + 1 + e + 1).ediv 2 - 53) (-1074)) = target
    change min (e / 2) (max (((m.log2 : Int) + 1 + e + 1) / 2 - 53) (-1074)) = target at low
    generalize shift : (e - 2 * target).toNat = k
    apply within_roundWithAccuracy _ (by omega) _ (by omega) (.of_root _)
    · left
      have amount : 104 ≤ m.log2 + k := by omega
      apply le_log2_of_two_pow_le
      rw [Nat.le_sqrt]
      calc 2 ^ 52 * 2 ^ 52 = 2 ^ 104 := (Nat.pow_add ..).symm
        _ ≤ 2 ^ (m.log2 + k) := Nat.pow_le_pow_right (by decide) amount
        _ = 2 ^ m.log2 * 2 ^ k := Nat.pow_add ..
        _ ≤ m * 2 ^ k := Nat.mul_le_mul_right _ (Nat.log2_self_le (Nat.ne_of_gt pos))
    · have exponents : (b - e).toNat + k ≤ (b - target).toNat + (b - target).toNat := by omega
      calc m * 2 ^ k ≤ 2 ^ (b - e).toNat * 2 ^ k := Nat.mul_le_mul_right _ mantissa_le
        _ = 2 ^ ((b - e).toNat + k) := (Nat.pow_add ..).symm
        _ ≤ 2 ^ ((b - target).toNat + (b - target).toNat) :=
          Nat.pow_le_pow_right (by decide) exponents
        _ = 2 ^ (b - target).toNat * 2 ^ (b - target).toNat := Nat.pow_add ..

/-! ## Counts -/

theorem within_ofNat {n k : Nat} (small : n ≤ 2 ^ k) :
    Within k .positive (UnpackedFloat.ofNat Format.binary64 n) := by
  apply within_normalize (by omega) (by decide) (by omega)
  rw [Int.sub_zero, Int.toNat_natCast]
  exact Int.ofNat_le.mpr small

theorem log2_shiftLeft {n : Nat} (nonzero : n ≠ 0) (k : Nat) : (n <<< k).log2 = n.log2 + k := by
  induction k with
  | zero => rfl
  | succ k ih =>
    have kept : n <<< k ≠ 0 := by
      rw [Nat.shiftLeft_eq]
      exact Nat.mul_ne_zero nonzero (Nat.ne_of_gt (Nat.two_pow_pos k))
    rw [Nat.shiftLeft_succ, Nat.log2_two_mul kept, ih, Nat.add_assoc]

theorem ofNat_eq_round {n : Nat} (positive : 0 < n) :
    UnpackedFloat.ofNat Format.binary64 n = UnpackedFloat.round Format.binary64 .positive n 0 := by
  have above : compare (n : Int) 0 = .gt := by
    rw [Int.compare_eq_gt]
    omega
  simp only [UnpackedFloat.ofNat, UnpackedFloat.ofInt, UnpackedFloat.normalize, above,
    Int.toNat_natCast]

/-- A positive count is at least one once it is rounded. -/
theorem atLeastOne_ofNat {n : Nat} (positive : 0 < n) :
    AtLeastOne (UnpackedFloat.ofNat Format.binary64 n) := by
  rw [ofNat_eq_round positive]
  simp only [UnpackedFloat.round, decreaseExponent, targetExponent_eq]
  generalize shift : ((0 : Int) - max ((n.log2 : Int) + 0 - 52) (-1074)).toNat = k
  have log := log2_shiftLeft (Nat.ne_of_gt positive) k
  exact atLeastOne_round .exact (by omega) (by omega) (by omega)

end Nonlocal.Binary64
