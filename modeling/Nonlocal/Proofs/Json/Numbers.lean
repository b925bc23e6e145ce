import Nonlocal.Json.Writer
import Nonlocal.Proofs.Binary64.Rounding
import Nonlocal.Proofs.Json.Fields

/-!
Numbers as they are written.

A number that is read from its own text is read in front of whatever may follow a value
(`NumberParts.read_append`). The text of a finite number is one that can be read to its end: digits
without a leading zero, and after them a point with more digits, an exponent, or both
(`NumberParts.exists_read_numberText`). The number that is read can be another one, because it is
rounded twice.
-/

namespace Nonlocal

namespace Json

/-- A text in which a value may end here. -/
def Delimits (rest : List Char) : Prop :=
  ∀ c ∈ rest.head?, c = ',' ∨ c = ']' ∨ c = '\x7d' ∨ isSpace c = true

variable {cs rest : List Char}

theorem eq_of_isSpace {c : Char} (blank : isSpace c = true) :
    c = ' ' ∨ c = '\n' ∨ c = '\t' ∨ c = '\r' := by
  simpa only [isSpace, Bool.or_eq_true, beq_iff_eq, or_assoc] using blank

/-- What may follow a value is no part of a number. -/
theorem Delimits.head_apart (delimited : Delimits rest) : ∀ c ∈ rest.head?,
    c.isDigit = false ∧ c ≠ '.' ∧ c ≠ 'e' ∧ c ≠ 'E' := by
  intro c first
  rcases delimited c first with rfl | rfl | rfl | blank
  · decide
  · decide
  · decide
  · rcases eq_of_isSpace blank with rfl | rfl | rfl | rfl
    · decide
    · decide
    · decide
    · decide

theorem Delimits.head_not_digit (delimited : Delimits rest) :
    ∀ c ∈ rest.head?, c.isDigit = false :=
  fun c first => (delimited.head_apart c first).1

namespace NumberParts

theorem span_append (delimited : ∀ c ∈ rest.head?, c.isDigit = false) :
    Decimal.spanDigits (cs ++ rest) =
      ((Decimal.spanDigits cs).1, (Decimal.spanDigits cs).2 ++ rest) := by
  induction cs with
  | nil =>
    cases rest with
    | nil => rfl
    | cons c more => simp [Decimal.spanDigits, delimited c rfl]
  | cons c more ih =>
    simp only [Decimal.spanDigits, Prod.mk.injEq] at ih
    by_cases digit : c.isDigit = true
    · simp [Decimal.spanDigits, digit, ih]
    · simp [Decimal.spanDigits, digit]

theorem spanSign_append (c : Char) (cs rest : List Char) :
    Decimal.spanSign (c :: cs ++ rest) =
      ((Decimal.spanSign (c :: cs)).1, (Decimal.spanSign (c :: cs)).2 ++ rest) := by
  rw [List.cons_append]
  unfold Decimal.spanSign
  split
  · next same => cases same; rfl
  · next same => cases same; rfl
  · next minus plus =>
    split
    · next same => cases same; exact absurd rfl (minus _)
    · next same => cases same; exact absurd rfl (plus _)
    · rfl

theorem readExponent_append {p : NumberParts} {leaf : Leaf Numeral}
    (alone : readExponent p cs = (leaf, some [])) (delimited : Delimits rest) :
    readExponent p (cs ++ rest) = (leaf, some rest) := by
  cases cs with
  | nil =>
    obtain rfl : ⟨value p, .ok ()⟩ = leaf := congrArg Prod.fst alone
    cases rest with
    | nil => rfl
    | cons c more =>
      have unmarked : ¬(c = 'e' ∨ c = 'E') :=
        not_or.mpr (delimited.head_apart c rfl).2.2
      rw [List.nil_append, readExponent, if_neg unmarked]
  | cons mark more =>
    rw [List.cons_append, readExponent] at *
    split at alone
    · next marked =>
      rw [if_pos marked]
      cases more with
      | nil => cases alone
      | cons c more =>
        rw [spanSign_append]
        dsimp only at alone ⊢
        rw [span_append delimited.head_not_digit]
        dsimp only at alone ⊢
        split at alone
        · cases alone
        · next digits =>
          obtain ⟨rfl, blank⟩ := Prod.mk.inj alone
          rw [if_neg digits, Option.some.inj blank]
          rfl
    · cases alone

/-- Reads a number from behind its sign. -/
def readUnsigned (negative : Bool) (cs : List Char) : Leaf Numeral × Option (List Char) :=
  let (whole, rest) := Decimal.spanDigits cs
  match whole with
  | [] => incomplete rest
  | '0' :: _ :: _ => (⟨.error .numberInvalid, .error .numberInvalid⟩, none)
  | _ =>
    match rest with
    | '.' :: rest =>
      let (fraction, rest) := Decimal.spanDigits rest
      if fraction = [] then incomplete rest
      else readExponent ⟨negative, whole, some fraction, none⟩ rest
    | _ => readExponent ⟨negative, whole, none, none⟩ rest

theorem read_minus (cs : List Char) : read ('-' :: cs) = readUnsigned true cs :=
  rfl

theorem read_of_ne_minus {c : Char} (unsigned : c ≠ '-') (cs : List Char) :
    read (c :: cs) = readUnsigned false (c :: cs) := by
  unfold read
  split
  next sign =>
    split at sign
    · next signed => exact absurd (List.cons.inj signed).1 unsigned
    · cases sign
      rfl

theorem readUnsigned_append {negative : Bool} {leaf : Leaf Numeral}
    (alone : readUnsigned negative cs = (leaf, some [])) (delimited : Delimits rest) :
    readUnsigned negative (cs ++ rest) = (leaf, some rest) := by
  unfold readUnsigned at *
  rw [span_append delimited.head_not_digit]
  dsimp only at *
  generalize (Decimal.spanDigits cs).1 = whole at *
  generalize (Decimal.spanDigits cs).2 = tail at *
  split at alone
  · cases alone
  · cases alone
  · next some_digit no_zero =>
    cases tail with
    | nil =>
      have pointless : ∀ more, [] ++ rest ≠ '.' :: more := by
        rintro more rfl
        exact (delimited.head_apart '.' rfl).2.1 rfl
      split
      · next same => exact absurd same (pointless _)
      · exact readExponent_append alone delimited
    | cons c more =>
      split at alone
      · next same =>
        obtain ⟨rfl, rfl⟩ := List.cons.inj same
        rw [List.cons_append]
        split
        · next same =>
          obtain ⟨-, rfl⟩ := List.cons.inj same
          rw [span_append delimited.head_not_digit]
          split at alone
          · cases alone
          · next digits =>
            rw [if_neg digits]
            exact readExponent_append alone delimited
        · next other => exact absurd rfl (other _)
      · next pointless =>
        split
        · next same => exact absurd (congrArg (· :: more) (List.cons.inj same).1) (pointless more)
        · exact readExponent_append alone delimited

/-- A number that is read from its own text is read in front of what may follow a value. -/
theorem read_append {leaf : Leaf Numeral} (alone : read cs = (leaf, some []))
    (delimited : Delimits rest) : read (cs ++ rest) = (leaf, some rest) := by
  cases cs with
  | nil => cases alone
  | cons c more =>
    by_cases signed : c = '-'
    · subst signed
      rw [read_minus] at alone
      rw [List.cons_append, read_minus]
      exact readUnsigned_append alone delimited
    · rw [read_of_ne_minus signed] at alone
      rw [List.cons_append, read_of_ne_minus signed]
      exact readUnsigned_append alone delimited

theorem exists_head_of_read {leaf : Leaf Numeral} (alone : read cs = (leaf, some [])) :
    ∃ c more, cs = c :: more ∧ (c = '-' ∨ c.isDigit = true) := by
  cases cs with
  | nil => cases alone
  | cons c more =>
    refine ⟨c, more, rfl, ?_⟩
    by_cases signed : c = '-'
    · exact .inl signed
    · by_cases digit : c.isDigit = true
      · exact .inr digit
      · have none : Decimal.spanDigits (c :: more) = ([], c :: more) := by
          simp [Decimal.spanDigits, digit]
        rw [read_of_ne_minus signed, readUnsigned, none] at alone
        cases alone

/-! ## Texts of numbers -/

/-- Digits before the point: a leading zero stands alone. -/
structure IsWhole (cs : List Char) : Prop where
  some_digit : cs ≠ []
  digits : ∀ c ∈ cs, c.isDigit = true
  leading : cs.head? = some '0' → cs = ['0']

/-- An exponent: nothing, or a mark with a sign and digits. -/
inductive IsExponent : List Char → Prop
  | absent : IsExponent []
  | negative {digits : List Char} : digits ≠ [] → (∀ c ∈ digits, c.isDigit = true) →
    IsExponent ('e' :: '-' :: digits)
  | positive {digits : List Char} : digits ≠ [] → (∀ c ∈ digits, c.isDigit = true) →
    IsExponent ('e' :: '+' :: digits)

/-- A number without a sign. -/
inductive IsUnsigned : List Char → Prop
  | whole {whole exponent : List Char} : IsWhole whole → IsExponent exponent →
    IsUnsigned (whole ++ exponent)
  | pointed {whole fraction exponent : List Char} : IsWhole whole → fraction ≠ [] →
    (∀ c ∈ fraction, c.isDigit = true) → IsExponent exponent →
    IsUnsigned (whole ++ '.' :: (fraction ++ exponent))

theorem spanDigits_append {digits : List Char} (all : ∀ c ∈ digits, c.isDigit = true)
    (stops : ∀ c ∈ rest.head?, c.isDigit = false) :
    Decimal.spanDigits (digits ++ rest) = (digits, rest) := by
  rw [Decimal.spanDigits, List.takeWhile_append_of_pos all, List.dropWhile_append_of_pos all]
  cases rest with
  | nil => simp
  | cons c more => simp [stops c rfl]

theorem spanDigits_whole {digits : List Char} (all : ∀ c ∈ digits, c.isDigit = true) :
    Decimal.spanDigits digits = (digits, []) := by
  have stops : ∀ c ∈ ([] : List Char).head?, c.isDigit = false := nofun
  rw [← spanDigits_append all stops, List.append_nil]

theorem IsExponent.stops {exponent : List Char} (form : IsExponent exponent) :
    ∀ c ∈ exponent.head?, c.isDigit = false := by
  rcases form with _ | _ | _
  · exact fun c first => nomatch first
  · rintro c ⟨⟩
    rfl
  · rintro c ⟨⟩
    rfl

theorem exists_readExponent {exponent : List Char} (form : IsExponent exponent) (p : NumberParts) :
    ∃ leaf, readExponent p exponent = (leaf, some []) := by
  rcases form with _ | ⟨some_digit, digits⟩ | ⟨some_digit, digits⟩
  · exact ⟨_, rfl⟩
  all_goals
    have read := spanDigits_whole digits
    rw [readExponent, if_pos (.inl rfl)]
    simp only [Decimal.spanSign, read, if_neg some_digit]
    exact ⟨_, rfl⟩

/-- Reads a number from behind its digits before the point. -/
def readBehind (negative : Bool) (whole : List Char) :
    List Char → Leaf Numeral × Option (List Char)
  | '.' :: rest =>
    let (fraction, rest) := Decimal.spanDigits rest
    if fraction = [] then incomplete rest
    else readExponent ⟨negative, whole, some fraction, none⟩ rest
  | rest => readExponent ⟨negative, whole, none, none⟩ rest

/-- Digits without a leading zero are taken as they are. -/
theorem readUnsigned_whole (whole : IsWhole cs) (stops : ∀ c ∈ rest.head?, c.isDigit = false)
    (negative : Bool) : readUnsigned negative (cs ++ rest) = readBehind negative cs rest := by
  rw [readUnsigned, spanDigits_append whole.digits stops]
  dsimp only
  split
  · exact absurd rfl whole.some_digit
  · cases whole.leading rfl
  · unfold readBehind
    split
    · rfl
    · rfl

theorem exists_readUnsigned (form : IsUnsigned cs) (negative : Bool) :
    ∃ leaf, readUnsigned negative cs = (leaf, some []) := by
  rcases form with ⟨whole, exponent⟩ | ⟨whole, some_digit, digits, exponent⟩
  · rw [readUnsigned_whole whole exponent.stops, readBehind]
    · exact exists_readExponent exponent _
    · rintro more rfl
      cases exponent
  · have point : ∀ more, ∀ c ∈ ('.' :: more : List Char).head?, c.isDigit = false := by
      rintro more c ⟨⟩
      rfl
    rw [readUnsigned_whole whole (point _)]
    simp only [readBehind, spanDigits_append digits exponent.stops, if_neg some_digit]
    exact exists_readExponent exponent _

/-- The sign of a number. -/
def signOf (negative : Bool) : List Char :=
  if negative then ['-'] else []

theorem IsUnsigned.exists_head (form : IsUnsigned cs) :
    ∃ c more, cs = c :: more ∧ c.isDigit = true := by
  have first {whole : List Char} (digits : IsWhole whole) (tail : List Char) :
      ∃ c more, whole ++ tail = c :: more ∧ c.isDigit = true := by
    rcases List.exists_cons_of_ne_nil digits.some_digit with ⟨c, more, rfl⟩
    exact ⟨c, more ++ tail, rfl, digits.digits c List.mem_cons_self⟩
  rcases form with ⟨whole, -⟩ | ⟨whole, -, -, -⟩
  · exact first whole _
  · exact first whole _

/-- A number is read to its end. -/
theorem exists_read (form : IsUnsigned cs) (negative : Bool) :
    ∃ leaf, read (signOf negative ++ cs) = (leaf, some []) := by
  cases negative with
  | true => exact exists_readUnsigned form true
  | false =>
    rcases form.exists_head with ⟨c, more, rfl, digit⟩
    have unsigned : c ≠ '-' := by
      rintro rfl
      cases digit
    change ∃ leaf, read (c :: more) = _
    rw [read_of_ne_minus unsigned]
    exact exists_readUnsigned form false

end NumberParts

/-! ## Shortest decimals -/

end Json

namespace Binary64

open Float.Model Float.Model.UnpackedFloat

/-- The field of the exponent is the same however the bits are taken apart. -/
theorem toNat_exponentField (bits : UInt64) :
    ((bits >>> 52) &&& 0x7ff).toNat = (@unpackExponent .binary64 bits.toBitVec).toNat := by
  have masked (n : Nat) : n &&& 2047 = n % 2 ^ 11 := Nat.and_two_pow_sub_one_eq_mod n 11
  have field : (@unpackExponent .binary64 bits.toBitVec).toNat = bits.toNat >>> 52 % 2 ^ 11 := by
    rw [unpackExponent, BitVec.toNat_cast, BitVec.extractLsb_toNat]
    rfl
  rw [UInt64.toNat_and, UInt64.toNat_shiftRight, field]
  exact masked _

/-- A finite number is one with a significand and an exponent. -/
theorem isFinite_iff {x : Float} : x.isFinite = true ↔ ∃ s m e, ofFloat x = .finite s m e := by
  change (UnpackedFloat.unpack .binary64 x.toBits.toBitVec).isFinite = true ↔ _
  have field := toNat_exponentField x.toBits
  rw [unpack_eq, ofFields]
  unfold ofFloat ofBits
  dsimp only
  split
  · next top =>
    have largest : ((x.toBits >>> 52) &&& 0x7ff).toNat = 0x7ff :=
      field.trans (congrArg BitVec.toNat top)
    rw [if_pos largest]
    refine iff_of_false ?_ ?_
    · split
      · exact Bool.false_ne_true
      · exact Bool.false_ne_true
    · rintro ⟨s, m, e, same⟩
      split at same
      · cases same
      · cases same
  · next bounded =>
    have below : ((x.toBits >>> 52) &&& 0x7ff).toNat ≠ 0x7ff := by
      rw [field]
      exact fun top => bounded (BitVec.eq_of_toNat_eq top)
    rw [if_neg below]
    refine iff_of_true ?_ ?_
    · split
      · split
        · rfl
        · rfl
      · rfl
    · split
      · exact ⟨_, _, _, rfl⟩
      · exact ⟨_, _, _, rfl⟩

end Binary64

namespace Ratio

theorem num_ofBinary_pos {m : Nat} (pos : 0 < m) (e : Int) : 0 < (ofBinary m e).num := by
  unfold ofBinary
  split
  · exact pos
  · exact Nat.mul_pos pos (Nat.pow_pos (by decide))

theorem den_ofDecimal_pos (m : Nat) (e : Int) : 0 < (ofDecimal m e).den := by
  unfold ofDecimal
  split
  · exact Nat.pow_pos (by decide)
  · exact Nat.one_pos

theorem num_ofDecimal_zero (e : Int) : (ofDecimal 0 e).num = 0 := by
  unfold ofDecimal
  split
  · rfl
  · exact Nat.zero_mul _

theorem le_roundEven (q : Ratio) : q.num / q.den ≤ q.roundEven := by
  unfold roundEven
  dsimp only
  split
  · exact Nat.le_refl _
  · split
    · exact Nat.le_succ _
    · exact Nat.le_add_right _ _

end Ratio

namespace Decimal

namespace Interval

variable {i : Interval} {d : Scaled}

/-- The decimals around a positive number are positive. -/
theorem digits_pos_of_contains (pos : 0 < i.significand) (inside : i.contains d = true) :
    0 < d.digits := by
  rcases d with ⟨digits, exponent⟩
  rcases Nat.eq_zero_or_pos digits with rfl | some_digit
  · have unit := Ratio.num_ofBinary_pos Nat.one_pos (i.exponent - 2)
    have value := Ratio.den_ofDecimal_pos 0 exponent
    have room : 0 < 4 * i.significand - i.below := by
      unfold below
      split
      · omega
      · omega
    have lower := Nat.mul_pos (Nat.mul_pos room unit) value
    rw [contains, Ratio.num_ofDecimal_zero, Nat.zero_mul] at inside
    split at inside
    · have bounds := (Bool.and_eq_true_iff.mp inside).1
      exact absurd (of_decide_eq_true bounds) (Nat.not_le.mpr lower)
    · have bounds := (Bool.and_eq_true_iff.mp inside).1
      exact absurd (of_decide_eq_true bounds) (Nat.not_lt_zero _)
  · exact some_digit

theorem digits_pos_of_nearest? (pos : 0 < i.significand) {k : Int} {count : Nat}
    (found : i.nearest? k count = some d) : 0 < d.digits := by
  unfold nearest? at found
  dsimp only at found
  split at found
  · next inside _ =>
    cases found
    exact Nat.lt_of_lt_of_le (digits_pos_of_contains pos inside) (Ratio.le_roundEven _)
  · next inside _ =>
    cases found
    exact digits_pos_of_contains pos inside
  · cases found
    exact Nat.succ_pos _
  · cases found

theorem shortest_cases (pos : 0 < i.significand) :
    0 < i.shortest.digits ∨ i.shortest = ⟨0, 0⟩ := by
  unfold shortest
  dsimp only
  rcases found : (List.range 17).findSome? fun n =>
      i.nearest? (Ratio.ofBinary i.significand i.exponent).decimalExponent (n + 1) with _ | d
  · exact .inr rfl
  · rcases List.exists_of_findSome?_eq_some found with ⟨n, -, near⟩
    exact .inl (digits_pos_of_nearest? pos near)

end Interval

theorem Scaled.digits_normalize_pos {d : Scaled} (pos : 0 < d.digits) (fuel : Nat) :
    0 < (d.normalize fuel).digits := by
  induction fuel generalizing d with
  | zero => exact pos
  | succ fuel ih =>
    rw [Scaled.normalize]
    split
    · next divides => exact ih (show 0 < d.digits / 10 by omega)
    · exact pos

/-- The shortest decimal of a positive number has a digit apart from zero, or it is written without
an exponent. -/
theorem shortestOf_cases {m : Nat} (pos : 0 < m) (e : Int) :
    0 < (shortestOf m e).digits ∨ shortestOf m e = ⟨0, 0⟩ := by
  unfold shortestOf
  rcases Interval.shortest_cases (i := ⟨m, e⟩) pos with some_digit | none
  · exact .inl (Scaled.digits_normalize_pos some_digit 20)
  · rw [none]
    exact .inr rfl

end Decimal

namespace Json

/-! ## Digits -/

namespace NumberParts

variable {n : Nat}

theorem isDigit_toDigits : ∀ c ∈ Nat.toDigits 10 n, c.isDigit = true :=
  fun _ inside => Nat.isDigit_of_mem_toDigits (by decide) (by decide) inside

theorem head_toDigits_ne_zero (pos : 0 < n) : (Nat.toDigits 10 n).head? ≠ some '0' := by
  induction n using Nat.strongRecOn with
  | ind n ih =>
    by_cases small : n < 10
    · rw [Nat.toDigits_of_lt_base small]
      have table : ∀ n < 10, 0 < n → [Nat.digitChar n].head? ≠ some '0' := by decide
      exact table n small pos
    · have large := Nat.le_of_not_lt small
      have shorter := ih (n / 10) (by omega) (by omega)
      rcases List.exists_cons_of_ne_nil (Nat.toDigits_ne_nil (n := n / 10) (b := 10)) with
        ⟨c, more, same⟩
      rw [same] at shorter
      rw [Nat.toDigits_of_base_le (by decide) large, same]
      exact shorter

theorem isWhole_toDigits (n : Nat) : IsWhole (Nat.toDigits 10 n) where
  some_digit := Nat.toDigits_ne_nil
  digits := isDigit_toDigits
  leading zero := by
    rcases Nat.eq_zero_or_pos n with rfl | pos
    · rfl
    · exact absurd zero (head_toDigits_ne_zero pos)

theorem toList_toString_ofNat (k : Nat) :
    (toString (Int.ofNat k)).toList = Nat.toDigits 10 k :=
  String.toList_ofList

theorem toList_toString_negSucc (k : Nat) :
    (toString (Int.negSucc k)).toList = '-' :: Nat.toDigits 10 (k + 1) := by
  have digits : ("-" ++ String.ofList (Nat.toDigits 10 (k + 1))).toList =
      '-' :: (String.ofList (Nat.toDigits 10 (k + 1))).toList := String.toList_append
  exact digits.trans (congrArg ('-' :: ·) String.toList_ofList)

/-- A whole number is read to its end. -/
theorem exists_read_integer (n : Int) :
    ∃ leaf, read (toString n).toList = (leaf, some []) := by
  have digits (k : Nat) : IsUnsigned (Nat.toDigits 10 k) := by
    have form := IsUnsigned.whole (isWhole_toDigits k) .absent
    rwa [List.append_nil] at form
  rcases n with k | k
  · rw [toList_toString_ofNat]
    exact exists_read (digits k) false
  · rw [toList_toString_negSucc]
    exact exists_read (digits (k + 1)) true

/-! ## Decimals -/

theorem toList_withPoint_of_zero (digits : List Char) :
    (Decimal.withPoint 0 digits).toList = digits := by
  simp [Decimal.withPoint]

theorem toList_withPoint {places : Nat} (some_place : places ≠ 0) (digits : List Char) :
    (Decimal.withPoint places digits).toList = digits.take (digits.length - places) ++
      '.' :: digits.drop (digits.length - places) := by
  rw [Decimal.withPoint, if_neg some_place, String.toList_ofList]

theorem isDigit_zeros {k : Nat} : ∀ c ∈ List.replicate k '0', c.isDigit = true := by
  intro c inside
  rw [List.eq_of_mem_replicate inside]
  rfl

theorem isDigit_padded {width : Nat} :
    ∀ c ∈ Decimal.paddedDigits width n, c.isDigit = true := by
  intro c inside
  rcases List.mem_append.mp inside with zero | digit
  · exact isDigit_zeros c zero
  · exact isDigit_toDigits c digit

theorem length_padded (width n : Nat) : (Decimal.paddedDigits width n).length =
    max width (Nat.toDigits 10 n).length := by
  rw [Decimal.paddedDigits, List.length_append, List.length_replicate]
  omega

/-- The first digits of a number with more than one digit start with no zero. -/
theorem IsWhole.take {digits : List Char} (whole : IsWhole digits) (several : 1 < digits.length)
    {k : Nat} (pos : 0 < k) : IsWhole (digits.take k) where
  some_digit none := by
    rcases List.take_eq_nil_iff.mp none with zero | nil
    · exact absurd zero (Nat.ne_of_gt pos)
    · exact whole.some_digit nil
  digits _ inside := whole.digits _ (List.mem_of_mem_take inside)
  leading zero := by
    rw [List.head?_take, if_neg (Nat.ne_of_gt pos)] at zero
    rw [whole.leading zero] at several
    exact absurd several (Nat.lt_irrefl 1)

/-- Zeros in front of digits leave one digit before the point, or none are needed. -/
theorem isWhole_take_padded {places : Nat} (some_place : 0 < places) (n : Nat) :
    IsWhole ((Decimal.paddedDigits (places + 1) n).take
      ((Decimal.paddedDigits (places + 1) n).length - places)) := by
  have size := length_padded (places + 1) n
  rcases Nat.lt_or_ge places (Nat.toDigits 10 n).length with long | short
  · have same : Decimal.paddedDigits (places + 1) n = Nat.toDigits 10 n := by
      have enough : places + 1 - (Nat.toDigits 10 n).length = 0 := by omega
      rw [Decimal.paddedDigits, enough, List.replicate_zero, List.nil_append]
    rw [same]
    exact (isWhole_toDigits n).take (by omega) (by omega)
  · have first : (Decimal.paddedDigits (places + 1) n).length - places = 1 := by omega
    have missing : places + 1 - (Nat.toDigits 10 n).length =
        (places - (Nat.toDigits 10 n).length) + 1 := by omega
    rw [first, Decimal.paddedDigits, missing, List.replicate_succ]
    exact isWhole_toDigits 0

theorem isUnsigned_withPoint {places : Nat} (some_place : 0 < places) {digits : List Char}
    (whole : IsWhole (digits.take (digits.length - places))) (long : places ≤ digits.length)
    (all : ∀ c ∈ digits, c.isDigit = true) {exponent : List Char} (form : IsExponent exponent) :
    IsUnsigned ((Decimal.withPoint places digits).toList ++ exponent) := by
  have some_digit : digits.drop (digits.length - places) ≠ [] := by
    intro none
    have length := congrArg List.length none
    rw [List.length_drop, List.length_nil] at length
    omega
  have pointed := IsUnsigned.pointed whole some_digit
    (fun c inside => all c (List.mem_of_mem_drop inside)) form
  rw [toList_withPoint (Nat.ne_of_gt some_place), List.append_assoc]
  exact pointed

/-- Zeros behind the digits of a number that is not zero. -/
theorem isWhole_append_zeros {d : Decimal.Scaled} (shape : 0 < d.digits ∨ d = ⟨0, 0⟩) :
    IsWhole (Nat.toDigits 10 d.digits ++ List.replicate d.exponent.toNat '0') := by
  have whole := isWhole_toDigits d.digits
  rcases shape with some_digit | rfl
  · refine ⟨?_, ?_, fun zero => ?_⟩
    · exact List.append_ne_nil_of_left_ne_nil whole.some_digit _
    · intro c inside
      rcases List.mem_append.mp inside with digit | zero
      · exact whole.digits c digit
      · exact isDigit_zeros c zero
    · rcases digits : Nat.toDigits 10 d.digits with _ | ⟨c, more⟩
      · exact absurd digits whole.some_digit
      · have nonzero := head_toDigits_ne_zero some_digit
        rw [digits] at zero nonzero
        exact absurd zero nonzero
  · exact whole

/-- The positional text of a decimal, with a zero behind the point if there is nothing else. -/
theorem isUnsigned_positional {d : Decimal.Scaled} (shape : 0 < d.digits ∨ d = ⟨0, 0⟩) :
    IsUnsigned (d.positional ++ if d.exponent < 0 then "" else ".0").toList := by
  rw [String.toList_append, Decimal.Scaled.positional]
  by_cases small : d.exponent < 0
  · have some_place : 0 < (-d.exponent).toNat := by omega
    have long := length_padded ((-d.exponent).toNat + 1) d.digits
    rw [if_pos small, if_pos small]
    exact isUnsigned_withPoint some_place (isWhole_take_padded some_place d.digits) (by omega)
      isDigit_padded .absent
  · rw [if_neg small, if_neg small, String.toList_ofList]
    exact .pointed (isWhole_append_zeros shape) (List.cons_ne_nil '0' [])
      (List.forall_mem_singleton.mpr rfl) .absent

/-- The text of an exponent. -/
theorem isExponent_text (k : Int) :
    IsExponent ("e" ++ (if k < 0 then "" else "+") ++ toString k).toList := by
  rcases k with k | k
  · have nonneg : ¬Int.ofNat k < 0 := Int.not_lt.mpr (Int.natCast_nonneg k)
    rw [if_neg nonneg, String.toList_append, toList_toString_ofNat]
    exact .positive Nat.toDigits_ne_nil isDigit_toDigits
  · rw [if_pos (Int.negSucc_lt_zero k), String.toList_append, toList_toString_negSucc]
    exact .negative Nat.toDigits_ne_nil isDigit_toDigits

/-- One digit before the point, the others behind it, and an exponent. -/
theorem isUnsigned_scientific (n : Nat) (k : Int) :
    IsUnsigned (Decimal.withPoint ((Nat.toDigits 10 n).length - 1) (Nat.toDigits 10 n) ++ "e" ++
      (if k < 0 then "" else "+") ++ toString k).toList := by
  have whole := isWhole_toDigits n
  have exponent := isExponent_text k
  rw [String.append_assoc, String.append_assoc, String.toList_append, ← String.append_assoc]
  rcases Nat.eq_zero_or_pos ((Nat.toDigits 10 n).length - 1) with none | some_place
  · rw [none, toList_withPoint_of_zero]
    exact .whole whole exponent
  · exact isUnsigned_withPoint some_place (whole.take (by omega) (by omega)) (by omega)
      isDigit_toDigits exponent

/-- The text of a finite number is read to its end. -/
theorem exists_read_numberText {x : Float} (finite : x.isFinite = true) :
    ∃ leaf, read (numberText x).toList = (leaf, some []) := by
  rcases Binary64.isFinite_iff.mp finite with ⟨negative, m, e, taken⟩
  have signed (text : String) : ((if negative then "-" else "") ++ text).toList =
      signOf negative ++ text.toList := by
    rw [String.toList_append]
    cases negative
    · rfl
    · rfl
  rw [numberText, taken]
  dsimp only
  split
  · rw [signed]
    exact exists_read (.pointed (isWhole_toDigits 0) (List.cons_ne_nil '0' [])
      (List.forall_mem_singleton.mpr rfl) .absent) negative
  · next nonzero =>
    have shape := Decimal.shortestOf_cases (Nat.pos_of_ne_zero nonzero) e
    split
    · rw [String.append_assoc, signed]
      exact exists_read (isUnsigned_positional shape) negative
    · generalize Decimal.shortestOf m e = d
      have form := isUnsigned_scientific d.digits
        (d.exponent + (Nat.toDigits 10 d.digits).length - 1)
      simp only [String.append_assoc] at form
      simp only [String.append_assoc, signed]
      exact exists_read form negative

end NumberParts

end Json

end Nonlocal
