import Nonlocal.Proofs.Binary64.Nearest
import Nonlocal.Proofs.Chaos.Seed

/-!
The fraction that a seed stands for.

A seed is read without the blanks around it and without one mark of hexadecimal notation
(`Seed.HasDigits`). The first sixteen of its digits are the upper bits of a word, and these are
rounded to 53 binary digits and divided by the number of words; the largest of them would round up
to the whole, and give the largest number below one instead (`Seed.value?_share`). So the fraction
keeps the order of the seeds and is off by less than `2 ^ 11` words (`Seed.fraction_eq_share`).
-/

namespace Nonlocal

/-! ## Blanks -/

namespace Text

/-- No blank stands at either end. -/
def IsTrimmed (cs : List Char) : Prop :=
  (∀ c ∈ cs.head?, isBlank c = false) ∧ ∀ c ∈ cs.getLast?, isBlank c = false

variable {before cs after : List Char}

theorem dropWhile_blanks (blank : ∀ c ∈ before, isBlank c = true)
    (head : ∀ c ∈ cs.head?, isBlank c = false) : (before ++ cs).dropWhile isBlank = cs := by
  rw [List.dropWhile_append_of_pos blank]
  cases cs with
  | nil => rfl
  | cons c cs => exact List.dropWhile_cons_of_neg (Bool.eq_false_iff.mp (head c rfl))

/-- Of a text between blanks the text remains. -/
theorem trimBlanks_eq (left : ∀ c ∈ before, isBlank c = true)
    (right : ∀ c ∈ after, isBlank c = true) (trimmed : IsTrimmed cs) :
    trimBlanks (before ++ cs ++ after) = cs := by
  obtain ⟨head, last⟩ := trimmed
  have behind : ∀ c ∈ after.reverse, isBlank c = true := fun c inside =>
    right c (List.mem_reverse.mp inside)
  have front : ((before ++ cs ++ after).dropWhile isBlank).reverse.dropWhile isBlank =
      cs.reverse := by
    cases cs with
    | nil =>
      have none : (before ++ [] ++ after).dropWhile isBlank = [] := by
        rw [List.append_nil, List.dropWhile_append_of_pos left]
        exact List.dropWhile_eq_nil_iff.mpr right
      rw [none]
      rfl
    | cons c cs =>
      have kept : (before ++ (c :: cs ++ after)).dropWhile isBlank = c :: cs ++ after :=
        dropWhile_blanks left head
      rw [List.append_assoc, kept, List.reverse_append]
      exact dropWhile_blanks behind (by rwa [List.head?_reverse])
  rw [trimBlanks, front, List.reverse_reverse]

theorem exists_trimBlanks (cs : List Char) : ∃ before after,
    cs = before ++ trimBlanks cs ++ after ∧ (∀ c ∈ before, isBlank c = true) ∧
      (∀ c ∈ after, isBlank c = true) ∧ IsTrimmed (trimBlanks cs) := by
  have head (cs : List Char) : ∀ c ∈ (cs.dropWhile isBlank).head?, isBlank c = false := by
    intro c first
    have kept := List.head?_dropWhile_not isBlank cs
    rwa [Option.mem_def.mp first] at kept
  have dropped (cs : List Char) : ∀ c ∈ cs.takeWhile isBlank, isBlank c = true := fun c inside =>
    List.all_eq_true.mp List.all_takeWhile c inside
  have rest := List.takeWhile_append_dropWhile (p := isBlank) (l := (cs.dropWhile isBlank).reverse)
  have parts : cs.dropWhile isBlank =
      trimBlanks cs ++ ((cs.dropWhile isBlank).reverse.takeWhile isBlank).reverse := by
    rw [trimBlanks, ← List.reverse_append, rest, List.reverse_reverse]
  refine ⟨cs.takeWhile isBlank, ((cs.dropWhile isBlank).reverse.takeWhile isBlank).reverse, ?_,
    dropped cs, fun c inside => dropped _ c (List.mem_reverse.mp inside), fun c first => ?_, ?_⟩
  · rw [List.append_assoc, ← parts, List.takeWhile_append_dropWhile]
  · apply head cs c
    rw [parts, List.head?_append, Option.mem_def.mp first]
    rfl
  · rw [trimBlanks, List.getLast?_reverse]
    exact head _

/-! ## Digits -/

/-- The sixteen digits in lower case. -/
def lowerDigits : List Char :=
  ['0', '1', '2', '3', '4', '5', '6', '7', '8', '9', 'a', 'b', 'c', 'd', 'e', 'f']

/-- The digits of hexadecimal notation in either case. -/
def hexDigits : List Char :=
  lowerDigits ++ ['A', 'B', 'C', 'D', 'E', 'F']

/-- The place of a digit among the sixteen. -/
def digitValue (c : Char) : ℕ :=
  lowerDigits.idxOf c.toLower

theorem hexDigit?_of_mem {c : Char} (digit : c ∈ hexDigits) :
    hexDigit? c = some (digitValue c) := by
  have table : hexDigits.map hexDigit? = hexDigits.map (some ∘ digitValue) := by decide +kernel
  exact List.map_inj_left.mp table c digit

theorem mem_of_range {c first last : Char} (lower : first ≤ c) (upper : c ≤ last) :
    c ∈ (List.range' first.toNat (last.toNat + 1 - first.toNat)).map Char.ofNat := by
  have above : first.toNat ≤ c.toNat := lower
  have below : c.toNat ≤ last.toNat := upper
  refine List.mem_map.mpr ⟨c.toNat, List.mem_range'_1.mpr ⟨above, by omega⟩, ?_⟩
  exact Char.ofNat_toNat c

theorem isSome_hexDigit?_iff {c : Char} : (hexDigit? c).isSome = true ↔ c ∈ hexDigits := by
  constructor
  · intro digit
    unfold hexDigit? at digit
    split_ifs at digit with decimal lower upper
    · have listed := mem_of_range decimal.1 decimal.2
      exact List.mem_append_left _ (List.mem_of_mem_take (i := 10) listed)
    · exact List.mem_append_left _ (List.mem_of_mem_drop (i := 10) (mem_of_range lower.1 lower.2))
    · exact List.mem_append_right _ (mem_of_range upper.1 upper.2)
    · cases digit
  · intro digit
    rw [hexDigit?_of_mem digit]
    rfl

/-- The number with the given digits, the first one weighing most. -/
def positional (digits : List Char) : ℕ :=
  Nat.ofDigits 16 (digits.reverse.map digitValue)

theorem digitValue_lt {c : Char} (digit : c ∈ hexDigits) : digitValue c < 16 :=
  hexDigit?_lt (hexDigit?_of_mem digit)

variable {digits : List Char}

theorem foldlM_digits (start : ℕ) (hex : ∀ c ∈ digits, c ∈ hexDigits) :
    digits.foldlM (fun n c => (digit? 16 c).map (16 * n + ·)) start =
      some (16 ^ digits.length * start + positional digits) := by
  induction digits generalizing start with
  | nil => simp [positional]
  | cons c rest ih =>
    obtain ⟨first, others⟩ := List.forall_mem_cons.mp hex
    have place : positional (c :: rest) = positional rest + 16 ^ rest.length * digitValue c := by
      rw [positional, List.reverse_cons, List.map_append, Nat.ofDigits_append, List.length_map,
        List.length_reverse, List.map_singleton, Nat.ofDigits_singleton]
      rfl
    rw [List.foldlM_cons, digit?_sixteen, hexDigit?_of_mem first]
    change rest.foldlM _ (16 * start + digitValue c) = _
    rw [ih _ others, place, List.length_cons, pow_succ]
    congr 1
    ring

theorem hexValue?_eq (hex : ∀ c ∈ digits, c ∈ hexDigits) :
    hexValue? digits = some (positional digits) := by
  rw [hexValue?, value?, foldlM_digits 0 hex, Nat.mul_zero, Nat.zero_add]

theorem positional_lt (hex : ∀ c ∈ digits, c ∈ hexDigits) :
    positional digits < 16 ^ digits.length := by
  rw [positional, ← List.length_reverse, ← List.length_map (f := digitValue)]
  apply Nat.ofDigits_lt_base_pow_length (by decide)
  intro d inside
  obtain ⟨c, member, rfl⟩ := List.mem_map.mp inside
  exact digitValue_lt (hex c (List.mem_reverse.mp member))

end Text

namespace Seed

open Binary64

/-! ## Reading a seed -/

/-- The marks of hexadecimal notation. -/
def marks : List (List Char) :=
  [['0', 'x'], ['0', 'X']]

/-- The digits of a seed: what is left of it without the blanks around it and without one mark, if
it has a mark. -/
def HasDigits (seed : String) (digits : List Char) : Prop :=
  ∃ before mark after, seed.toList = before ++ (mark ++ digits) ++ after ∧
    (∀ c ∈ before, Text.isBlank c = true) ∧ (∀ c ∈ after, Text.isBlank c = true) ∧
    Text.IsTrimmed (mark ++ digits) ∧
    (mark ∈ marks ∨ mark = [] ∧ ∀ m ∈ marks, ¬m <+: digits)

/-- A text without its mark. -/
def stripMark : List Char → List Char
  | '0' :: 'x' :: rest => rest
  | '0' :: 'X' :: rest => rest
  | digits => digits

theorem leadingDigits_eq (seed : String) :
    leadingDigits seed = (stripMark (Text.trimBlanks seed.toList)).take 16 := by
  rfl

theorem exists_mark (cs : List Char) : ∃ mark, cs = mark ++ stripMark cs ∧
    (mark ∈ marks ∨ mark = [] ∧ ∀ m ∈ marks, ¬m <+: stripMark cs) := by
  unfold stripMark
  split
  · next rest => exact ⟨['0', 'x'], rfl, .inl (by decide)⟩
  · next rest => exact ⟨['0', 'X'], rfl, .inl (by decide)⟩
  · next lower upper =>
    refine ⟨[], rfl, .inr ⟨rfl, fun m inside => ?_⟩⟩
    rintro ⟨rest, rfl⟩
    rcases List.mem_pair.mp inside with rfl | rfl
    · exact lower rest rfl
    · exact upper rest rfl

theorem stripMark_append {mark digits : List Char}
    (h : mark ∈ marks ∨ mark = [] ∧ ∀ m ∈ marks, ¬m <+: digits) :
    stripMark (mark ++ digits) = digits := by
  rcases h with marked | ⟨rfl, unmarked⟩
  · rcases List.mem_pair.mp marked with rfl | rfl
    · rfl
    · rfl
  · rw [List.nil_append]
    unfold stripMark
    split
    · next rest => exact absurd ⟨rest, rfl⟩ (unmarked ['0', 'x'] (by decide))
    · next rest => exact absurd ⟨rest, rfl⟩ (unmarked ['0', 'X'] (by decide))
    · rfl

theorem hasDigits_iff {seed : String} {digits : List Char} :
    HasDigits seed digits ↔ digits = stripMark (Text.trimBlanks seed.toList) := by
  constructor
  · rintro ⟨before, mark, after, parts, left, right, trimmed, marked⟩
    rw [parts, Text.trimBlanks_eq left right trimmed, stripMark_append marked]
  · rintro rfl
    obtain ⟨before, after, parts, left, right, trimmed⟩ := Text.exists_trimBlanks seed.toList
    obtain ⟨mark, same, marked⟩ := exists_mark (Text.trimBlanks seed.toList)
    refine ⟨before, mark, after, ?_, left, right, ?_, marked⟩
    · rwa [← same]
    · rwa [← same]

/-- A seed is accepted if it has a digit, and no other characters among the first sixteen. -/
def IsAccepted (digits : List Char) : Prop :=
  digits ≠ [] ∧ ∀ c ∈ digits.take 16, c ∈ Text.hexDigits

instance (digits : List Char) : Decidable (IsAccepted digits) :=
  have : Decidable (∀ c ∈ digits.take 16, c ∈ Text.hexDigits) := List.decidableBAll _ _
  inferInstanceAs (Decidable (_ ∧ _))

/-- The upper 64 bits of a seed. -/
def bits (digits : List Char) : ℕ :=
  Text.positional (digits.take 16)

variable {seed : String} {digits : List Char}

theorem IsAccepted.bits_lt (accepted : IsAccepted digits) : bits digits < 2 ^ 64 := by
  calc bits digits < 16 ^ (digits.take 16).length := Text.positional_lt accepted.2
    _ ≤ 16 ^ 16 := Nat.pow_le_pow_right (by decide) (List.length_take_le 16 digits)
    _ = 2 ^ 64 := rfl

theorem upperBits_eq {K : Type} (read : HasDigits seed digits) :
    upperBits K seed = if IsAccepted digits then .ok (bits digits)
      else .error (.malformed (.seedNotHexadecimal seed)) := by
  have leading : leadingDigits seed = digits.take 16 := by
    rw [leadingDigits_eq, ← hasDigits_iff.mp read]
  unfold upperBits
  simp only [leading]
  by_cases hex : ∀ c ∈ digits.take 16, c ∈ Text.hexDigits
  · have blank : digits.take 16 = [] ↔ ¬IsAccepted digits := by
      rw [IsAccepted, and_iff_left hex, not_not, List.take_eq_nil_iff]
      exact or_iff_right (by decide)
    rw [Text.hexValue?_eq hex]
    simp only [blank, ite_not, bits]
  · have none : Text.hexValue? (digits.take 16) = none := by
      refine Option.eq_none_iff_forall_ne_some.mpr fun n found => hex fun c inside => ?_
      exact Text.isSome_hexDigit?_iff.mp (Text.exists_hexValue?_iff.mp ⟨n, found⟩ c inside)
    rw [none, if_neg fun accepted => hex accepted.2]

/-! ## Rounding the upper bits -/

/-- The fraction of a word. -/
def share (v : ℕ) : Float :=
  Scalar.min (Scalar.ofNat v / Scalar.ofNat UInt64.size) (1 - 1 / Scalar.ofNat (Nat.pow 2 53))

/-- The rational number that the fraction of a word is. -/
def exactShare (v : ℕ) : ℚ :=
  min (nearest v / 2 ^ 64) (1 - 1 / 2 ^ 53)

/-- The largest number below one. -/
theorem number_cap : number (1 - 1 / Scalar.ofNat (Nat.pow 2 53)) =
    .finite .positive (2 ^ 53 - 1) (-53) (by decide) :=
  rfl

theorem below_cap : Below true 0 (1 - 1 / Scalar.ofNat (Nat.pow 2 53)) := by
  refine ⟨.positive, fun _ => rfl, ?_⟩
  rw [number_cap]
  exact .finite _ ⟨by decide, by decide, .inl (by decide)⟩ (by decide) (by decide)

theorem value?_cap : value? (1 - 1 / Scalar.ofNat (Nat.pow 2 53)) = some (1 - 1 / 2 ^ 53) := by
  rw [value?, number_cap, rational?_positive]
  norm_num

theorem value?_share {v : ℕ} (word : v < 2 ^ 64) : value? (share v) = some (exactShare v) := by
  have words : number (Scalar.ofNat UInt64.size) =
      .finite .positive (2 ^ 52) 12 (by decide) := rfl
  have quotient : Below true 64 (Scalar.ofNat v / Scalar.ofNat UInt64.size) :=
    (below_ofNat word.le (by decide)).div_ofNat (by decide) (by decide) (by decide +kernel)
  have value := value?_div_power words (by decide) (by decide) word.le (by decide)
  have unit : (2 ^ 52 * 2 ^ (12 : ℤ) : ℚ) = 2 ^ 64 := by norm_num
  rw [unit] at value
  exact value?_min quotient below_cap value value?_cap

theorem exactShare_bounds (v : ℕ) : 0 ≤ exactShare v ∧ exactShare v < 1 := by
  constructor
  · exact le_min (by positivity) (by norm_num)
  · exact (min_le_right _ _).trans_lt (by norm_num)

theorem exactShare_mono : Monotone exactShare := by
  intro v w le
  have nearer : (nearest v : ℚ) ≤ nearest w := Nat.cast_le.mpr (nearest_mono le)
  exact min_le_min_right _ (div_le_div_of_nonneg_right nearer (by positivity))

/-- The fraction is off by less than one part in `2 ^ 53`. -/
theorem exactShare_error {v : ℕ} (word : v < 2 ^ 64) : |exactShare v * 2 ^ 64 - v| < 2 ^ 11 := by
  obtain ⟨above, below⟩ := nearest_error word
  have upper : (nearest v : ℚ) ≤ v + 2 ^ 10 := by exact_mod_cast above
  have lower : (v : ℚ) ≤ nearest v + 2 ^ 10 := by exact_mod_cast below
  have last : (v : ℚ) + 1 ≤ 2 ^ 64 := by exact_mod_cast word
  have scaled : exactShare v * 2 ^ 64 = min (nearest v : ℚ) (2 ^ 64 - 2 ^ 11) := by
    rw [exactShare, min_mul_of_nonneg _ _ (by positivity), div_mul_cancel₀ _ (by positivity)]
    norm_num
  rw [scaled, abs_sub_lt_iff]
  constructor
  · have := min_le_left (nearest v : ℚ) (2 ^ 64 - 2 ^ 11)
    linarith
  · have : (v : ℚ) - 2 ^ 11 < min (nearest v : ℚ) (2 ^ 64 - 2 ^ 11) :=
      lt_min (by linarith) (by linarith)
    linarith

/-! ## The fraction of a seed -/

theorem fraction_eq (read : HasDigits seed digits) :
    fraction seed = if IsAccepted digits then .ok (share (bits digits))
      else .error (.malformed (.seedNotHexadecimal seed)) := by
  rw [fraction, upperBits_eq read]
  split_ifs
  · rfl
  · rfl

/-- The case of the digits does not matter. -/
theorem bits_eq_of_toLower {digits' : List Char}
    (same : (digits.take 16).map Char.toLower = (digits'.take 16).map Char.toLower) :
    bits digits = bits digits' := by
  have values (ds : List Char) :
      ds.map Text.digitValue = (ds.map Char.toLower).map Text.lowerDigits.idxOf := by
    rw [List.map_map]
    rfl
  rw [bits, bits, Text.positional, Text.positional, List.map_reverse, List.map_reverse, values,
    values, same]

/-- Every seed has its digits. It is accepted if it has one at all and the first sixteen characters
of them are hexadecimal digits, and then these are the digits of a word. The fraction of a word is
the nearest number of 53 digits, divided by the number of words and kept below one: it is a number
between zero and one, less than `2 ^ 11` words off, and no smaller for a larger word. Seeds whose
first sixteen digits are the same up to their case have the same fraction. -/
theorem fraction_eq_share :
    (∀ seed, ∃! digits, HasDigits seed digits) ∧
    (∀ seed digits, HasDigits seed digits →
      fraction seed = if IsAccepted digits then .ok (share (bits digits))
        else .error (.malformed (.seedNotHexadecimal seed))) ∧
    (∀ digits, IsAccepted digits → bits digits < 2 ^ 64) ∧
    (∀ v < 2 ^ 64, value? (share v) = some (exactShare v) ∧ 0 ≤ exactShare v ∧ exactShare v < 1 ∧
      |exactShare v * 2 ^ 64 - v| < 2 ^ 11) ∧
    Monotone exactShare ∧
    (∀ seed seed' digits digits', HasDigits seed digits → HasDigits seed' digits' →
      IsAccepted digits → IsAccepted digits' →
      (digits.take 16).map Char.toLower = (digits'.take 16).map Char.toLower →
      (fraction seed : Except (Error Float) Float) = fraction seed') := by
  refine ⟨fun seed => ?_, fun seed digits read => fraction_eq read,
    fun digits accepted => accepted.bits_lt, fun v word => ?_, exactShare_mono, ?_⟩
  · exact ⟨_, hasDigits_iff.mpr rfl, fun digits read => hasDigits_iff.mp read⟩
  · obtain ⟨nonneg, below⟩ := exactShare_bounds v
    exact ⟨value?_share word, nonneg, below, exactShare_error word⟩
  · intro seed seed' digits digits' read read' accepted accepted' same
    rw [fraction_eq read, fraction_eq read', if_pos accepted, if_pos accepted',
      bits_eq_of_toLower same]

/-- The largest word would round up to the whole, and gives the largest number below it. -/
theorem fraction_eq_share_capped :
    let digits := List.replicate 16 'F' ++ ['g']
    HasDigits "\u3000 0xFFFFFFFFFFFFFFFFg\n" digits ∧ bits digits = 2 ^ 64 - 1 ∧
      fraction "\u3000 0xFFFFFFFFFFFFFFFFg\n" = .ok (share (2 ^ 64 - 1)) ∧
      nearest (2 ^ 64 - 1) = 2 ^ 64 ∧ value? (share (2 ^ 64 - 1)) = some (1 - 1 / 2 ^ 53) := by
  intro digits
  have read : HasDigits "\u3000 0xFFFFFFFFFFFFFFFFg\n" digits :=
    ⟨['\u3000', ' '], ['0', 'x'], ['\n'], rfl, List.all_eq_true.mp rfl, List.all_eq_true.mp rfl,
      ⟨by rintro c ⟨⟩; rfl, by rintro c ⟨⟩; rfl⟩, .inl (by decide)⟩
  have accepted : IsAccepted digits := by decide +kernel
  have word : bits digits = 2 ^ 64 - 1 := by decide +kernel
  have rounded : nearest (2 ^ 64 - 1) = 2 ^ 64 := by decide +kernel
  obtain ⟨-, reading, -, value, -⟩ := fraction_eq_share
  refine ⟨read, word, ?_, rounded, ?_⟩
  · rw [reading _ _ read, if_pos accepted, word]
  · rw [(value _ (by decide)).1, exactShare, rounded]
    norm_num

end Seed

end Nonlocal
