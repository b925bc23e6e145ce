import Mathlib.Analysis.SpecialFunctions.Complex.Log
import Mathlib.Analysis.SpecialFunctions.Log.Base
import Mathlib.Analysis.SpecialFunctions.Pow.Real
import Mathlib.Analysis.SpecialFunctions.Sqrt
import Nonlocal.Clamp
import Nonlocal.Numerics

/-!
Exact arithmetic: the scalars that a simulation is reasoned about.

An exact number is a real number, an infinity, or the outcome of an undefined operation. The rules
for the last two are those of binary64 arithmetic; between real numbers nothing is rounded, and zero
has no sign. A statement about the simulator over these scalars says what its formulas compute, and
covers the infinite and undefined requests that its clamps have to deal with.
-/

namespace Nonlocal

/-- The bound that the numeral two rests on, by name: definitions refer to it instead of carrying a
proof of their own. -/
instance atLeastTwo_two : Nat.AtLeastTwo 2 := ⟨le_rfl⟩

/-- A real number, an infinity or an undefined value. -/
inductive Exact where
  | finite (x : ℝ)
  | infinite (negative : Bool)
  | nan

namespace Exact

/-- The real number, or zero where there is none. -/
def toReal : Exact → ℝ
  | finite x => x
  | _ => 0

/-- Is this a real number? -/
def isFinite : Exact → Bool
  | finite _ => true
  | _ => false

/-- Is this the undefined value? -/
def isNaN : Exact → Bool
  | nan => true
  | _ => false

/-- A real function on the real numbers, with given values at the infinities. -/
def extend (f : ℝ → Exact) (atInfinity : Bool → Exact) : Exact → Exact
  | finite x => f x
  | infinite negative => atInfinity negative
  | nan => nan

/-! ## Field operations -/

/-- The sum; infinities of different sign have none. -/
noncomputable def add : Exact → Exact → Exact
  | finite x, finite y => finite (x + y)
  | infinite s, finite _ | finite _, infinite s => infinite s
  | infinite s, infinite t => if s = t then infinite s else nan
  | nan, _ | _, nan => nan

/-- The number of opposite sign. -/
noncomputable def neg : Exact → Exact :=
  extend (fun x => finite (-x)) fun s => infinite !s

/-- The infinity on the side of `x`, turned around if `flip` is set; zero is on no side. -/
noncomputable def infinityAlong (flip : Bool) (x : ℝ) : Exact :=
  if x = 0 then nan else infinite (flip ^^ decide (x < 0))

/-- The product; zero and an infinity have none. -/
noncomputable def mul : Exact → Exact → Exact
  | finite x, finite y => finite (x * y)
  | infinite s, finite x | finite x, infinite s => infinityAlong s x
  | infinite s, infinite t => infinite (s ^^ t)
  | nan, _ | _, nan => nan

/-- The quotient; zero is divided by as by a vanishing positive number. -/
noncomputable def div : Exact → Exact → Exact
  | finite x, finite y => if y = 0 then infinityAlong false x else finite (x / y)
  | finite _, infinite _ => finite 0
  | infinite s, finite y => infinite (s ^^ decide (y < 0))
  | infinite _, infinite _ => nan
  | nan, _ | _, nan => nan

/-! ## Comparisons -/

/-- Strictly below. -/
noncomputable def lt : Exact → Exact → Bool
  | finite x, finite y => decide (x < y)
  | infinite s, finite _ => s
  | finite _, infinite s => !s
  | infinite s, infinite t => s && !t
  | nan, _ | _, nan => false

/-- Equal as numbers. -/
noncomputable def eq : Exact → Exact → Bool
  | finite x, finite y => decide (x = y)
  | infinite s, infinite t => s == t
  | _, _ => false

/-! ## Elementary functions -/

/-- The integer part toward zero, within the range of 64-bit integers. -/
noncomputable def truncate : Exact → Int
  | finite x =>
    Max.max Int64.minValue.toInt (Min.min (if x < 0 then ⌈x⌉ else ⌊x⌋) Int64.maxValue.toInt)
  | infinite s => (if s then Int64.minValue else Int64.maxValue).toInt
  | nan => 0

/-- A logarithm; at zero it is the negative infinity, and below it is undefined. -/
noncomputable def logarithm (f : ℝ → ℝ) : Exact → Exact :=
  extend (fun x => if x < 0 then nan else if x = 0 then infinite true else finite (f x))
    fun s => if s then nan else infinite false

/-- Length of the hypotenuse; an infinite leg makes it infinite. -/
noncomputable def hypot : Exact → Exact → Exact
  | finite x, finite y => finite √(x * x + y * y)
  | infinite _, _ | _, infinite _ => infinite false
  | nan, _ | _, nan => nan

/-- Is this an odd whole number? -/
def IsOddInteger (x : ℝ) : Prop := ∃ n : ℤ, Odd n ∧ x = n

open Classical in
/-- A power. The power of a negative base is defined for whole exponents only, and the exponent zero
or the base one makes any power one. -/
noncomputable def pow : Exact → Exact → Exact
  | finite x, finite y =>
    if x = 0 ∧ y < 0 then infinite false
    else if x < 0 ∧ ∀ n : ℤ, y ≠ n then nan
    else finite (x ^ y)
  | finite x, infinite s =>
    if |x| = 1 then finite 1 else if decide (1 < |x|) = !s then infinite false else finite 0
  | infinite s, finite y =>
    if y = 0 then finite 1 else if y < 0 then finite 0
    else infinite (s && decide (IsOddInteger y))
  | infinite _, infinite s => if s then finite 0 else infinite false
  | nan, finite y => if y = 0 then finite 1 else nan
  | finite x, nan => if x = 1 then finite 1 else nan
  | nan, _ | _, nan => nan

noncomputable instance : Scalar Exact where
  add := add
  sub a b := add a (neg b)
  mul := mul
  div := div
  neg := neg
  ofNat n := finite n
  ofScientific m s e := finite (OfScientific.ofScientific m s e)
  pi := finite Real.pi
  lt := lt
  le a b := lt a b || eq a b
  eq := eq
  isNaN := isNaN
  isFinite := isFinite
  truncate := truncate
  floor := extend (fun x => finite ⌊x⌋) infinite
  abs := extend (fun x => finite |x|) fun _ => infinite false
  sqrt := extend (fun x => if x < 0 then nan else finite √x)
    fun s => if s then nan else infinite false
  hypot := hypot
  sin := extend (fun x => finite (Real.sin x)) fun _ => nan
  cos := extend (fun x => finite (Real.cos x)) fun _ => nan
  log := logarithm Real.log
  log2 := logarithm (Real.logb 2)
  pow := pow

/-! ## Arithmetic of real numbers -/

@[simp] theorem toReal_finite (x : ℝ) : (finite x).toReal = x := rfl

@[simp] theorem isFinite_finite (x : ℝ) : Scalar.isFinite (finite x) = true := rfl

@[simp] theorem isNaN_finite (x : ℝ) : Scalar.isNaN (finite x) = false := rfl

/-- A finite number is the real number it stands for. -/
theorem eq_finite_of_isFinite {x : Exact} (h : Scalar.isFinite x = true) :
    x = finite x.toReal := by
  cases x with
  | finite x => rfl
  | infinite s => cases h
  | nan => cases h

@[simp] theorem zero_eq : (0 : Exact) = finite 0 :=
  congrArg finite Nat.cast_zero

@[simp] theorem one_eq : (1 : Exact) = finite 1 :=
  congrArg finite Nat.cast_one

@[simp] theorem two_eq : (2 : Exact) = finite 2 :=
  congrArg finite Nat.cast_ofNat

@[simp] theorem ofNat_eq (n : ℕ) : (Scalar.ofNat n : Exact) = finite n := rfl

@[simp] theorem finite_add (x y : ℝ) : finite x + finite y = finite (x + y) := rfl

@[simp] theorem finite_mul (x y : ℝ) : finite x * finite y = finite (x * y) := rfl

@[simp] theorem neg_finite (x : ℝ) : -finite x = finite (-x) := rfl

@[simp] theorem finite_sub (x y : ℝ) : finite x - finite y = finite (x - y) :=
  congrArg finite (sub_eq_add_neg x y).symm

theorem finite_div (x : ℝ) {y : ℝ} (h : y ≠ 0) : finite x / finite y = finite (x / y) :=
  if_neg h

@[simp] theorem half_finite (x : ℝ) : finite x / finite 2 = finite (x / 2) :=
  finite_div x two_ne_zero

@[simp] theorem finite_lt (x y : ℝ) : Scalar.lt (finite x) (finite y) = decide (x < y) := rfl

@[simp] theorem finite_le (x y : ℝ) : Scalar.le (finite x) (finite y) = decide (x ≤ y) := by
  change (decide (x < y) || decide (x = y)) = decide (x ≤ y)
  rw [← Bool.decide_or, decide_eq_decide, le_iff_lt_or_eq]

@[simp] theorem finite_eq (x y : ℝ) : Scalar.eq (finite x) (finite y) = decide (x = y) := rfl

@[simp] theorem sin_finite (x : ℝ) : Scalar.sin (finite x) = finite (Real.sin x) := rfl

@[simp] theorem cos_finite (x : ℝ) : Scalar.cos (finite x) = finite (Real.cos x) := rfl

@[simp] theorem hypot_finite (x y : ℝ) :
    Scalar.hypot (finite x) (finite y) = finite √(x * x + y * y) := rfl

theorem sqrt_finite {x : ℝ} (h : 0 ≤ x) : Scalar.sqrt (finite x) = finite √x :=
  if_neg (not_lt.mpr h)

@[simp] theorem abs_finite (x : ℝ) : Scalar.abs (finite x) = finite |x| := rfl

theorem min_finite (x y : ℝ) : Scalar.min (finite x) (finite y) = finite (min x y) := by
  simp only [Scalar.min, isNaN_finite, Bool.false_eq_true, if_false, finite_lt, decide_eq_true_eq]
  split
  · next below => rw [min_eq_right below.le]
  · next above => rw [min_eq_left (not_lt.mp above)]

theorem max_finite (x y : ℝ) : Scalar.max (finite x) (finite y) = finite (max x y) := by
  simp only [Scalar.max, isNaN_finite, Bool.false_eq_true, if_false, finite_lt, decide_eq_true_eq]
  split
  · next below => rw [max_eq_right below.le]
  · next above => rw [max_eq_left (not_lt.mp above)]

theorem log_finite {x : ℝ} (h : 0 < x) : Scalar.log (finite x) = finite (Real.log x) :=
  (if_neg h.le.not_gt).trans (if_neg h.ne')

theorem log2_finite {x : ℝ} (h : 0 < x) : Scalar.log2 (finite x) = finite (Real.logb 2 x) :=
  (if_neg h.le.not_gt).trans (if_neg h.ne')

theorem pow_finite {x y : ℝ} (nonneg : 0 ≤ x) (defined : x = 0 → 0 ≤ y) :
    Scalar.pow (finite x) (finite y) = finite (x ^ y) := by
  have bounded : ¬(x = 0 ∧ y < 0) := fun h => absurd h.2 (defined h.1).not_gt
  have real : ¬(x < 0 ∧ ∀ n : ℤ, y ≠ n) := fun h => absurd h.1 nonneg.not_gt
  exact (if_neg bounded).trans (if_neg real)

theorem powNatFrom_finite (acc base : ℝ) (n : ℕ) :
    Scalar.powNatFrom (finite acc) (finite base) n = finite (acc * base ^ n) := by
  induction n using Nat.strongRecOn generalizing acc base with
  | ind n ih =>
    rw [Scalar.powNatFrom]
    split
    · next zero => rw [zero, pow_zero, mul_one]
    · next positive =>
      have smaller : n / 2 < n := Nat.div_lt_self (Nat.pos_of_ne_zero positive) one_lt_two
      have digits : base ^ n = (base * base) ^ (n / 2) * base ^ (n % 2) := by
        rw [← sq, ← pow_mul, ← pow_add, Nat.div_add_mod]
      rw [finite_mul, finite_mul, digits]
      split
      · next odd =>
        rw [ih _ smaller, odd, pow_one]
        congr 1
        ring
      · next even => rw [ih _ smaller, Nat.mod_two_ne_one.mp even, pow_zero, mul_one]

/-- Repeated squaring computes the power. -/
theorem powNat_finite (x : ℝ) (n : ℕ) : Scalar.powNat (finite x) n = finite (x ^ n) := by
  rw [Scalar.powNat, one_eq, powNatFrom_finite, one_mul]

/-- A function that takes real numbers to real numbers, on a list of them. -/
theorem map_map_finite {f : Exact → Exact} {g : ℝ → ℝ} {xs : List ℝ}
    (h : ∀ x ∈ xs, f (finite x) = finite (g x)) :
    (xs.map finite).map f = (xs.map g).map finite := by
  rw [List.map_map, List.map_map]
  exact List.map_congr_left h

/-- A fold whose steps add real numbers. -/
theorem foldl_finite {α : Type} {g : Exact → α → Exact} {f : α → ℝ}
    (h : ∀ acc x, g (finite acc) x = finite (acc + f x)) (xs : List α) (acc : ℝ) :
    xs.foldl g (finite acc) = finite (acc + (xs.map f).sum) := by
  induction xs generalizing acc with
  | nil => simp
  | cons x xs ih => rw [List.foldl_cons, h, ih, List.map_cons, List.sum_cons, add_assoc]

/-- A sum of real numbers from the left is their sum. -/
theorem sum_finite (xs : List ℝ) : Scalar.sum (xs.map finite) = finite xs.sum := by
  have total := foldl_finite (g := fun acc x => acc + finite x) (f := id) (fun _ _ => rfl) xs 0
  rw [Scalar.sum, List.foldl_map, zero_eq, total, List.map_id, zero_add]

/-! ## Clamping -/

/-- The number of an interval that stands for a request; for an undefined request it is zero. -/
noncomputable def clamped (lo hi : ℝ) : Exact → ℝ
  | finite x => max lo (min x hi)
  | infinite negative => if negative then lo else hi
  | nan => 0

theorem clamped_mem {lo hi : ℝ} (below : lo ≤ 0) (above : 0 ≤ hi) (x : Exact) :
    lo ≤ x.clamped lo hi ∧ x.clamped lo hi ≤ hi := by
  rcases x with x | negative | _
  · exact ⟨le_max_left _ _, max_le (below.trans above) (min_le_right _ _)⟩
  · cases negative
    · exact ⟨below.trans above, le_rfl⟩
    · exact ⟨le_rfl, below.trans above⟩
  · exact ⟨below, above⟩

theorem clamped_of_mem {lo hi x : ℝ} (inside : x ∈ Set.Icc lo hi) :
    (finite x).clamped lo hi = x := by
  rw [clamped, min_eq_left inside.2, max_eq_right inside.1]

theorem clamped_mono {lo hi : ℝ} (ordered : lo ≤ hi) {x y : Exact}
    (le : Scalar.le x y = true) : x.clamped lo hi ≤ y.clamped lo hi := by
  have below (z : ℝ) : lo ≤ max lo (min z hi) := le_max_left _ _
  have above (z : ℝ) : max lo (min z hi) ≤ hi := max_le ordered (min_le_right _ _)
  rcases x with x | negative | _ <;> rcases y with y | negative' | _
  case finite.finite =>
    rw [finite_le, decide_eq_true_eq] at le
    exact max_le_max_left lo (min_le_min_right hi le)
  case finite.infinite =>
    cases negative'
    · exact above x
    · cases le
  case infinite.finite =>
    cases negative
    · cases le
    · exact below y
  case infinite.infinite =>
    cases negative <;> cases negative'
    · exact le_rfl
    · cases le
    · exact ordered
    · exact le_rfl
  all_goals cases le

/-- What is not below an interval's upper end is folded to it. -/
theorem clamped_of_le {lo hi : ℝ} (below : lo ≤ 0) (above : 0 ≤ hi) {x : Exact}
    (beyond : Scalar.le (finite hi) x = true) : x.clamped lo hi = hi := by
  have ordered := below.trans above
  have top : (finite hi).clamped lo hi = hi := clamped_of_mem ⟨ordered, le_rfl⟩
  exact le_antisymm (clamped_mem below above x).2 (top.ge.trans (clamped_mono ordered beyond))

theorem clamped_of_ge {lo hi : ℝ} (below : lo ≤ 0) (above : 0 ≤ hi) {x : Exact}
    (beyond : Scalar.le x (finite lo) = true) : x.clamped lo hi = lo := by
  have ordered := below.trans above
  have bottom : (finite lo).clamped lo hi = lo := clamped_of_mem ⟨le_rfl, ordered⟩
  exact le_antisymm ((clamped_mono ordered beyond).trans bottom.le) (clamped_mem below above x).1

/-- Clamping gives a real number, whatever was asked for. -/
theorem into_finite {lo hi : ℝ} (ordered : lo ≤ hi) (x : Exact) :
    Clamp.into (finite lo) (finite hi) x = finite (x.clamped lo hi) := by
  unfold Clamp.into
  rcases x with x | negative | _
  · simp only [isNaN_finite, Bool.false_eq_true, if_false, finite_lt, decide_eq_true_eq]
    split
    · next below =>
      rw [clamped, min_eq_left (below.le.trans ordered), max_eq_left below.le]
    · next inside =>
      split
      · next above => rw [clamped, min_eq_right above.le, max_eq_right ordered]
      · next inside' =>
        rw [clamped_of_mem ⟨not_lt.mp inside, not_lt.mp inside'⟩]
  · cases negative <;> rfl
  · exact zero_eq

/-- The probability with which the depolarizing channel is run when `p` is asked for. -/
noncomputable def noiseLevel (p : Exact) : ℝ :=
  p.clamped 0 (1 / 2)

theorem noiseLevel_nonneg (p : Exact) : 0 ≤ p.noiseLevel :=
  (clamped_mem le_rfl one_half_pos.le p).1

theorem noiseLevel_le_half (p : Exact) : p.noiseLevel ≤ 1 / 2 :=
  (clamped_mem le_rfl one_half_pos.le p).2

theorem noiseLevel_lt_one (p : Exact) : p.noiseLevel < 1 :=
  p.noiseLevel_le_half.trans_lt one_half_lt_one

@[simp] theorem noiseLevel_zero : (finite 0).noiseLevel = 0 := by
  norm_num [noiseLevel, clamped]

theorem noiseLevel_mono {p r : Exact} (le : Scalar.le p r = true) : p.noiseLevel ≤ r.noiseLevel :=
  clamped_mono one_half_pos.le le

@[simp] theorem depolarizing_eq (p : Exact) : Clamp.depolarizing p = finite p.noiseLevel := by
  have half : (Clamp.maxDepolarizing : Exact) = finite (1 / 2) := by
    simp [Clamp.maxDepolarizing]
  rw [Clamp.depolarizing, half, zero_eq, into_finite one_half_pos.le, noiseLevel]

theorem expectation_eq (e : Exact) : Clamp.expectation e = finite (e.clamped (-1) 1) := by
  rw [Clamp.expectation, one_eq, neg_finite, into_finite (by norm_num)]

theorem expectation_of_abs_le_one {x : ℝ} (h : |x| ≤ 1) :
    Clamp.expectation (finite x) = finite x := by
  rw [expectation_eq, clamped_of_mem (abs_le.mp h)]

theorem unit_of_mem {x : ℝ} (inside : x ∈ Set.Icc 0 1) : Clamp.unit (finite x) = finite x := by
  rw [Clamp.unit, zero_eq, one_eq, into_finite zero_le_one, clamped_of_mem inside]

end Exact

/-! ## Kernels -/

/-- The numerical kernels over exact numbers: they are not derived here, and statements that rely on
them say what of them is used. A draw counts the successes among some trials, so it does not exceed
their number. -/
class Kernels where
  eigenvalues : {n : Nat} → SquareMatrix Exact n → List Exact
  unitaryFactors : {n : Nat} → SquareMatrix Exact n → SquareMatrix Exact n × SquareMatrix Exact n
  normalQuantile : Exact → Exact
  ginibre : (n : Nat) → (seed : String) → SquareMatrix Exact n
  binomial : (trials : Nat) → (p : ℝ) → Generator → Fin (trials + 1) × Generator

noncomputable instance [Kernels] : Numerics Exact where
  eigenvalues := Kernels.eigenvalues
  unitaryFactors := Kernels.unitaryFactors
  normalQuantile := Kernels.normalQuantile
  ginibre := Kernels.ginibre
  binomial trials
    | .finite p => fun g =>
      let drawn := Kernels.binomial trials p g
      some (drawn.1.val, drawn.2)
    | _ => fun _ => none

end Nonlocal
