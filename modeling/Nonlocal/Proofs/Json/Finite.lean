import Nonlocal.Proofs.Binary64.Magnitude
import Nonlocal.Proofs.Json.Inherited
import Nonlocal.Proofs.Json.Objects

/-!
Every number of a text is finite.

A number of a text is its significand, scaled by a power of ten. To divide by a power of ten makes
no number larger, and a product that is too large is refused, so what is read is finite
(`NumberParts.isFinite_value`). The same holds then of all numbers inside of a text, however they are
asked for (`Document.isFinite_read`).
-/

namespace Nonlocal

/-! ## Products -/

namespace Binary64

open Float.Model Float.Model.UnpackedFloat

theorem isNaN_ofFields (s : Sign) {exponent : BitVec 11} {mantissa : BitVec 52}
    (number : exponent = -1#11 → mantissa = 0#52) :
    (ofFields s exponent mantissa).isNaN = false := by
  unfold ofFields
  split
  · next top =>
    rw [if_pos (number top)]
    rfl
  · split
    · split <;> rfl
    · rfl

/-- A number that was stored is read as a number, even if it was too large. -/
theorem isNaN_unpack_pack {u : UnpackedFloat} (number : u.isNaN = false) :
    (UnpackedFloat.unpack .binary64 (UnpackedFloat.pack .binary64 u)).isNaN = false := by
  have stored (s : Sign) {exponent : BitVec 11} {mantissa : BitVec 52}
      (number : exponent = -1#11 → mantissa = 0#52) : (UnpackedFloat.unpack .binary64
        (packComponents .binary64 s exponent mantissa)).isNaN = false := by
    rw [unpack_packComponents, isNaN_ofFields s number]
  cases u with
  | notANumber => cases number
  | infinity s => exact stored s fun _ => rfl
  | zero s => exact stored s fun _ => rfl
  | finite s m e pos =>
    rw [UnpackedFloat.pack]
    dsimp only
    split
    · exact stored s fun _ => rfl
    · next room =>
      split
      · -- The exponent of a number that is not too large stays below the topmost field.
        refine stored s fun top => absurd ?_ room
        have field := congrArg BitVec.toNat top
        have width : 2 ^ Format.binary64.exponentBits = 2048 := rfl
        have last : (-1#11).toNat = 2047 := rfl
        rw [BitVec.toNat_ofNat, width, last] at field
        omega
      · exact stored s fun bottom => absurd bottom (by decide)

/-- Storing changes no number below the largest power of two. -/
theorem unpack_pack_wide {b : Int} {s : Sign} {u : UnpackedFloat} (h : Within b s u)
    (least : -1022 ≤ b) (room : b ≤ 1023) :
    UnpackedFloat.unpack .binary64 (UnpackedFloat.pack .binary64 u) = u := by
  cases h with
  | zero t => cases t <;> rfl
  | finite _ stored _ mantissa_le =>
    have exponent := stored.exponent_le least mantissa_le
    exact unpack_pack_finite stored (by omega)

theorem isNaN_roundWithAccuracy (s : Sign) (m : Nat) (e : Int) (a : Accuracy) :
    (roundWithAccuracy Format.binary64 s m e a).isNaN = false := by
  unfold roundWithAccuracy
  dsimp only
  split <;> rfl

theorem isNaN_mul {u v : UnpackedFloat} (left : u.isFinite = true) (right : v.isFinite = true) :
    (UnpackedFloat.mul Format.binary64 u v).isNaN = false := by
  cases u with
  | notANumber | infinity => cases left
  | zero s => cases v with
    | notANumber | infinity => cases right
    | zero | finite => rfl
  | finite s m e pos => cases v with
    | notANumber | infinity => cases right
    | zero => rfl
    | finite => exact isNaN_roundWithAccuracy _ _ _ _

/-- A product of finite numbers is finite, unless it is too large. -/
theorem isFinite_mul {x y : Float} (left : x.isFinite = true) (right : y.isFinite = true)
    (small : (x * y).isInf = false) : (x * y).isFinite = true := by
  have product : (number (x * y)).isNaN = false := isNaN_unpack_pack (isNaN_mul left right)
  change (number (x * y)).isInf = false at small
  change (number (x * y)).isFinite = true
  generalize number (x * y) = u at product small ⊢
  cases u with
  | notANumber => cases product
  | infinity => cases small
  | zero | finite => rfl

/-! ## Stored numbers -/

/-- Is this number stored with all of its digits before the point, or with more? -/
def isLarge : UnpackedFloat → Bool
  | .finite .positive m e _ => 2 ^ 52 ≤ m && m < 2 ^ 53 && -52 ≤ e
  | _ => false

theorem atLeastOne_of_isLarge {u : UnpackedFloat} (large : isLarge u = true) : AtLeastOne u := by
  cases u with
  | finite s m e pos =>
    cases s with
    | positive =>
      simp only [isLarge, Bool.and_eq_true, decide_eq_true_eq] at large
      exact .finite pos large.1.1 large.1.2 large.2
    | negative => cases large
  | notANumber | infinity | zero => cases large

theorem isFinite_of_atLeastOne {x : Float} (large : AtLeastOne (number x)) : x.isFinite = true := by
  change (number x).isFinite = true
  generalize number x = u at large
  cases large
  rfl

theorem below_word (n : UInt64) : Below true 64 n.toFloat := by
  have small : n.toNat ≤ 2 ^ 64 := Nat.le_of_lt n.toNat_lt
  exact below_of_stored rfl (within_ofNat small) (fun _ => rfl) (by decide)

end Binary64

namespace Json

open Binary64

/-! ## Numbers -/

namespace NumberParts

open Float.Model Float.Model.UnpackedFloat

theorem log2_powerOfTen (e : Nat) : 53 ≤ (2 ^ 53 * 10 ^ e).log2 :=
  le_log2_of_two_pow_le (Nat.le_mul_of_pos_right _ (Nat.pow_pos (by decide)))

/-- A power of ten with too many digits is rounded as a mantissa. -/
theorem number_powerOfTen {e : Nat} (long : 22 < e) (listed : e ≤ 307) :
    number (powerOfTen e) =
      roundWithAccuracy .binary64 .positive (2 ^ 53 * 10 ^ e) (-53 + 0) .exact := by
  have log := log2_powerOfTen e
  have within : Within 1020 .positive
      (roundWithAccuracy Format.binary64 .positive (2 ^ 53 * 10 ^ e) (-53 + 0) .exact) := by
    refine within_roundWithAccuracy .positive (by decide) (.inl (by omega)) (by decide)
      (.of_exact ?_)
    calc 2 ^ 53 * 10 ^ e ≤ 2 ^ 53 * 10 ^ 307 :=
          Nat.mul_le_mul_left _ (Nat.pow_le_pow_right (by decide) listed)
      _ ≤ 2 ^ ((1020 : Int) - (-53 + 0)).toNat := by decide +kernel
  have slow : powerOfTen e = Float.ofModel (Float.Model.ofScientific 1 e) := by
    have digits : (Nat.toDigits 10 1).length = 1 := rfl
    have inexact : ¬(1 < 2 ^ 53 ∧ e ≤ 22) := by omega
    rw [powerOfTen, Decimal.nearest, digits, if_neg Bool.false_ne_true, if_neg (by omega),
      if_neg (by omega), if_neg (by omega)]
    exact dif_neg inexact
  have scaled : UnpackedFloat.ofScientific .binary64 1 e =
      roundWithAccuracy .binary64 .positive (2 ^ 53 * 10 ^ e) (-53 + 0) .exact := by
    have width : (2 : Int) ^ Format.binary64.exponentBits = 2048 := rfl
    rw [UnpackedFloat.ofScientific, dif_neg (by decide), if_neg (by omega), if_neg (by omega),
      if_pos (Int.natCast_nonneg e)]
    rfl
  rw [← unpack_pack_wide within (by decide) (by decide), ← scaled, slow]
  rfl

theorem atLeastOne_powerOfTen {e : Nat} (listed : e ≤ 308) :
    AtLeastOne (number (powerOfTen e)) := by
  have table : ∀ e < 23, isLarge (number (powerOfTen e)) = true := by decide +kernel
  have last : isLarge (number (powerOfTen 308)) = true := by decide +kernel
  -- The largest power is so close to the largest number that no power of two bounds it from above.
  by_cases short : e < 23
  · exact atLeastOne_of_isLarge (table e short)
  · obtain rfl | below := Nat.eq_or_lt_of_le listed
    · exact atLeastOne_of_isLarge last
    · have log := log2_powerOfTen e
      rw [number_powerOfTen (by omega) (by omega)]
      exact atLeastOne_round .exact (by decide) (by omega) (by omega)

/-- A significand that is scaled in steps stays finite. -/
theorem isFinite_scale {f x : Float} {e : Int} {steps : Nat} (below : Below true 64 f)
    (scaled : scale f e steps = .ok x) : x.isFinite = true := by
  induction steps generalizing f e with
  | zero =>
    cases scaled
    exact below.isFinite
  | succ steps ih =>
    rw [scale] at scaled
    split at scaled
    · next listed =>
      have power := atLeastOne_powerOfTen listed
      split at scaled
      · cases scaled
        exact (below.div (by decide) power).isFinite
      · dsimp only at scaled
        split at scaled
        · cases scaled
        · next small =>
          cases scaled
          exact isFinite_mul below.isFinite (isFinite_of_atLeastOne power)
            (Bool.eq_false_iff.mpr small)
    · split at scaled
      · cases scaled
        exact below.isFinite
      · split at scaled
        · cases scaled
        · exact ih (below.div (by decide) (atLeastOne_powerOfTen (Nat.le_refl _))) scaled

theorem isFinite_assemble {negative : Bool} {significand : Nat} {e : Int} {x : Float}
    (made : assemble negative significand e = .ok x) : x.isFinite = true := by
  obtain ⟨f, scaled, signed⟩ := bind_eq_ok.mp made
  have finite := isFinite_scale (below_word _) scaled
  cases signed
  split
  · exact isFinite_neg finite
  · exact finite

theorem isFinite_decimalValue {p : NumberParts} {significand : Nat} {e : Int} {x : Float}
    (made : p.decimalValue significand e = .ok x) : x.isFinite = true := by
  unfold decimalValue at made
  split at made
  · exact isFinite_assemble made
  · dsimp only at made
    split at made
    · split at made
      · cases made
      · cases made
        split <;> decide +kernel
    · exact isFinite_assemble made

/-- The digits that are taken fit 64 bits. -/
theorem absorb_le {n : Nat} (word : n ≤ maxSignificand) (cs : List Char) :
    (absorb n cs).1 ≤ maxSignificand := by
  induction cs generalizing n with
  | nil => exact word
  | cons c rest ih =>
    rw [absorb]
    split
    · exact word
    · next fits => exact ih (Nat.le_of_not_lt fits)

end NumberParts

/-- The number as a double. -/
def Numeral.toFloat : Numeral → Float
  | .integer n => Float.ofInt n
  | .decimal x => x

namespace NumberParts

theorem isFinite_natAbs {n : Int} (word : n.natAbs ≤ maxSignificand) :
    (Float.ofInt n).isFinite = true := by
  have small : n.natAbs ≤ 2 ^ 64 := by
    have : maxSignificand ≤ 2 ^ 64 := by decide
    omega
  have count := below_ofNat small (by decide)
  cases n with
  | ofNat n => exact count.isFinite
  | negSucc n => exact (count.neg (by decide)).isFinite

/-- The value of a number is finite, whatever its digits are. -/
theorem isFinite_value {p : NumberParts} {n : Numeral} (made : p.value = .ok n) :
    n.toFloat.isFinite = true := by
  have word := absorb_le (Nat.zero_le _) p.whole
  unfold value at made
  split at made
  next significand surplus taken =>
  rw [taken] at word
  dsimp only at word made
  split at made
  · split at made
    · cases made
      exact isFinite_natAbs word
    · split at made
      · cases made
        exact isFinite_neg (below_word _).isFinite
      · cases made
        exact isFinite_natAbs (by omega)
  · obtain ⟨x, decimal, rfl⟩ := map_eq_ok.mp made
    exact isFinite_decimalValue decimal
  · obtain ⟨x, decimal, rfl⟩ := map_eq_ok.mp made
    exact isFinite_decimalValue decimal

theorem isFinite_readExponent {p : NumberParts} {cs : List Char} {n : Numeral}
    (made : (readExponent p cs).1.value = .ok n) : n.toFloat.isFinite = true := by
  unfold readExponent at made
  split at made
  · split at made
    · dsimp only at made
      split at made
      · cases made
      · exact isFinite_value made
    · exact isFinite_value made
  · exact isFinite_value made

theorem isFinite_read {cs : List Char} {n : Numeral} (made : (read cs).1.value = .ok n) :
    n.toFloat.isFinite = true := by
  unfold read at made
  split at made
  dsimp only at made
  split at made
  · cases made
  · cases made
  · split at made
    · split at made
      · cases made
      · exact isFinite_readExponent made
    · exact isFinite_readExponent made

end NumberParts

/-! ## Documents -/

namespace Document

/-- All numbers of the document are finite, and none is written as a plain word. -/
inductive IsFinite : Document → Prop
  | absent (fault : Fault) : IsFinite (.absent fault)
  | misspelt (fault : Fault) : IsFinite (.misspelt fault)
  | null : IsFinite .null
  | boolean (b : Bool) : IsFinite (.boolean b)
  | number {leaf : Leaf Numeral} :
    (∀ n, leaf.value = .ok n → n.toFloat.isFinite = true) → IsFinite (.number leaf)
  | string (leaf : Leaf String) : IsFinite (.string leaf)
  | list {items : List Document} (close : ListEnd) : (∀ d ∈ items, IsFinite d) →
    IsFinite (.list items close)
  | object {entries : List (Leaf String × Document)} (close : ObjectEnd) :
    (∀ e ∈ entries, IsFinite e.2) → IsFinite (.object entries close)

theorem isInherited_isFinite : IsInherited IsFinite where
  absent := .absent
  misspelt := .misspelt
  null := .null
  boolean := .boolean
  number _ := .number fun _ => NumberParts.isFinite_read
  string := .string
  list := .list
  object := .object

/-- The numbers of a text are finite. -/
theorem isFinite_read (content : String) : (Document.read content).1.IsFinite :=
  isInherited_isFinite.read content

end Document

section Decoders

variable {d : Document}

theorem float_number (leaf : Leaf Numeral) :
    float (.number leaf) = leaf.value.map Numeral.toFloat := by
  rw [float]
  cases leaf.value with
  | error fault => rfl
  | ok n => cases n <;> rfl

theorem isFinite_of_float (finite : d.IsFinite) {x : Float} (made : float d = .ok x) :
    x.isFinite = true := by
  cases finite with
  | number finite =>
    rw [float_number] at made
    obtain ⟨n, given, rfl⟩ := map_eq_ok.mp made
    exact finite n given
  | absent | misspelt | null | boolean | string | list | object => cases made

theorem isFinite_of_floatTriple (finite : d.IsFinite) {x y z : Float}
    (made : floatTriple d = .ok (x, y, z)) :
    x.isFinite = true ∧ y.isFinite = true ∧ z.isFinite = true := by
  cases finite with
  | list close finite =>
    obtain ⟨⟨first, c⟩, taken, made⟩ := bind_eq_ok.mp made
    obtain ⟨x', firstMade, made⟩ := bind_eq_ok.mp made
    obtain ⟨⟨second, c'⟩, taken', made⟩ := bind_eq_ok.mp made
    obtain ⟨y', secondMade, made⟩ := bind_eq_ok.mp made
    obtain ⟨⟨third, c''⟩, taken'', made⟩ := bind_eq_ok.mp made
    obtain ⟨z', thirdMade, made⟩ := bind_eq_ok.mp made
    obtain ⟨-, -, same⟩ := bind_eq_ok.mp made
    obtain ⟨rfl, rfl, rfl⟩ : x' = x ∧ y' = y ∧ z' = z := by simpa using Except.ok.inj same
    have listed := next_eq_ok taken
    dsimp only at listed
    rw [listed, next_eq_ok taken', next_eq_ok taken'', List.forall_mem_cons, List.forall_mem_cons,
      List.forall_mem_cons] at finite
    exact ⟨isFinite_of_float finite.1 firstMade, isFinite_of_float finite.2.1 secondMade,
      isFinite_of_float finite.2.2.1 thirdMade⟩
  | absent | misspelt | null | boolean | number | string | object => cases made

section Maps

variable {κ α : Type} {key : Leaf String → Except Fault κ} {decode : Decoder α} {P : α → Prop}
  {xs : List (κ × α)}

theorem forall_of_entriesOf (ensures : ∀ d x, d.IsFinite → decode d = .ok x → P x)
    {entries : List (Leaf String × Document)} (finite : ∀ e ∈ entries, e.2.IsFinite)
    (made : entriesOf key decode entries = .ok xs) : ∀ e ∈ xs, P e.2 := by
  induction entries generalizing xs with
  | nil =>
    cases made
    exact List.forall_mem_nil _
  | cons e rest ih =>
    obtain ⟨here, later⟩ := List.forall_mem_cons.mp finite
    obtain ⟨k, -, made⟩ := bind_eq_ok.mp made
    obtain ⟨x, value, made⟩ := bind_eq_ok.mp made
    obtain ⟨xs', others, same⟩ := bind_eq_ok.mp made
    obtain rfl : (k, x) :: xs' = xs := Except.ok.inj same
    exact List.forall_mem_cons.mpr ⟨ensures e.2 x here value, ih later others⟩

theorem forall_of_mapOf (ensures : ∀ d x, d.IsFinite → decode d = .ok x → P x)
    (finite : d.IsFinite) (made : mapOf key decode d = .ok xs) : ∀ e ∈ xs, P e.2 := by
  cases finite with
  | object close finite =>
    obtain ⟨xs', entries, rest⟩ := bind_eq_ok.mp made
    obtain ⟨-, -, same⟩ := bind_eq_ok.mp rest
    obtain rfl : xs' = xs := Except.ok.inj same
    exact forall_of_entriesOf ensures finite entries
  | absent | misspelt | null | boolean | number | string | list => cases made

end Maps

end Decoders

end Json

end Nonlocal
