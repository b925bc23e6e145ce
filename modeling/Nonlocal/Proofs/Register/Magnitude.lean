import Mathlib.Algebra.Group.Nat.Defs
import Nonlocal.Proofs.Register.Fit
import Nonlocal.Run.Basic

/-!
Following magnitudes through a computation.

`Below nonneg b x` says that `x` is a number, that its magnitude is at most `2 ^ b`, and that it is
not negative if the flag is set. The operations that a correlator run is made of give such numbers
from such numbers, up to a limit from which a sum could overflow. A sum of arbitrarily many terms
exceeds its largest term only by sixty binary digits, because later terms are rounded away
(`HasMagnitudes.add_small`): so the bounds do not depend on how much there is to add.
-/

namespace Nonlocal

/-- The largest number of binary digits in front of the point that is followed. -/
def maxDigits : Nat := 200

/-- Arithmetic in which the results of operations are bounded by the bounds of their arguments. -/
class HasMagnitudes (K : Type) [Numerics K] where
  /-- Is this a number of at most `2 ^ b`, and not negative if the flag is set? -/
  Below : (nonneg : Bool) → (b : Nat) → K → Prop
  isFinite {n : Bool} {b : Nat} {x : K} : Below n b x → Scalar.isFinite x = true
  mono {n : Bool} {b c : Nat} {x : K} : Below n b x → b ≤ c → Below n c x
  forget {n : Bool} {b : Nat} {x : K} : Below n b x → Below false b x
  ofNat {k b : Nat} : k ≤ 2 ^ b → b ≤ maxDigits → Below true b (Scalar.ofNat k : K)
  neg {n : Bool} {b : Nat} {x : K} : Below n b x → b ≤ maxDigits → Below false b (-x)
  add {n m : Bool} {b : Nat} {x y : K} :
    Below n b x → Below m b y → b < maxDigits → Below (n && m) (b + 1) (x + y)
  /-- A term that is small enough does not carry a sum past a bound that it has reached. -/
  add_small {n m : Bool} {b : Nat} {x y : K} :
    Below n (b + 60) x → Below m b y → b + 60 ≤ maxDigits → Below (n && m) (b + 60) (x + y)
  sub {n m : Bool} {b : Nat} {x y : K} :
    Below n b x → Below m b y → b < maxDigits → Below false (b + 1) (x - y)
  one_sub {x : K} : Below true 0 x → Below true 0 (1 - x)
  mul {n m : Bool} {b c : Nat} {x y : K} :
    Below n b x → Below m c y → b + c ≤ maxDigits → Below (n && m) (b + c) (x * y)
  square {n : Bool} {b : Nat} {x : K} :
    Below n b x → b + b ≤ maxDigits → Below true (b + b) (x * x)
  div_ofNat {n : Bool} {b k : Nat} {x : K} :
    Below n b x → b ≤ maxDigits → 0 < k → k ≤ 2 ^ maxDigits → Below n b (x / Scalar.ofNat k)
  sqrt {b : Nat} {x : K} : Below true b x → b ≤ maxDigits → Below true b (Scalar.sqrt x)
  clamp_expectation (e : K) : Below false 0 (Clamp.expectation e)
  clamp_depolarizing (p : K) : Below true 0 (Clamp.depolarizing p)
  unit {x : K} : (Scalar.eq x 1 || Scalar.eq x (-1)) = true → Below false 0 x
  angle_neg {x : K} : Scalar.isFinite x = true → Scalar.isFinite (-x) = true
  sin {x : K} : Scalar.isFinite x = true → Below false 0 (Scalar.sin x)
  cos {x : K} : Scalar.isFinite x = true → Below false 0 (Scalar.cos x)
  /-- An interval of a run reaches at most sixteen deviations to either side. -/
  deviations : Below true 4 (Confidence.deviations (Run.confidenceLevel : K))

open HasMagnitudes

variable {K : Type} [Numerics K] [HasMagnitudes K] {n : Bool} {b c : Nat}

theorem below_zero (b : Nat) : Below true b (0 : K) :=
  mono (ofNat (b := 0) (Nat.zero_le _) (Nat.zero_le _)) (Nat.zero_le b)

theorem below_one (b : Nat) : Below true b (1 : K) :=
  mono (ofNat (b := 0) (Nat.le_refl 1) (Nat.zero_le _)) (Nat.zero_le b)

/-- A sum is bounded by its largest term, however many terms there are. -/
theorem below_foldl {α : Type} {f : α → K} {xs : List α} (terms : ∀ x ∈ xs, Below n b (f x))
    (room : b + 60 ≤ maxDigits) {acc : K} (start : Below n (b + 60) acc) :
    Below n (b + 60) (xs.foldl (fun acc x => acc + f x) acc) := by
  induction xs generalizing acc with
  | nil => exact start
  | cons x rest ih =>
    obtain ⟨first, others⟩ := List.forall_mem_cons.mp terms
    have sum := add_small start first room
    rw [Bool.and_self] at sum
    exact ih others sum

/-! ## Amplitudes -/

namespace Amplitude

/-- Both parts of an amplitude are at most `2 ^ b`. -/
structure IsBelow (b : Nat) (z : Amplitude K) : Prop where
  re : Below false b z.re
  im : Below false b z.im

variable {z w : Amplitude K}

theorem IsBelow.mono (h : z.IsBelow b) (le : b ≤ c) : z.IsBelow c :=
  ⟨HasMagnitudes.mono h.re le, HasMagnitudes.mono h.im le⟩

theorem isBelow_ofScalar {x : K} (h : Below n b x) : (ofScalar x).IsBelow b :=
  ⟨forget h, forget (below_zero b)⟩

theorem isBelow_zero (b : Nat) : (0 : Amplitude K).IsBelow b :=
  isBelow_ofScalar (below_zero b)

theorem IsBelow.add (hz : z.IsBelow b) (hw : w.IsBelow b) (room : b < maxDigits) :
    (z + w).IsBelow (b + 1) :=
  ⟨HasMagnitudes.add hz.re hw.re room, HasMagnitudes.add hz.im hw.im room⟩

theorem IsBelow.mul (hz : z.IsBelow b) (hw : w.IsBelow c) (room : b + c < maxDigits) :
    (z * w).IsBelow (b + c + 1) :=
  have re_re := HasMagnitudes.mul hz.re hw.re (Nat.le_of_lt room)
  have im_im := HasMagnitudes.mul hz.im hw.im (Nat.le_of_lt room)
  have re_im := HasMagnitudes.mul hz.re hw.im (Nat.le_of_lt room)
  have im_re := HasMagnitudes.mul hz.im hw.re (Nat.le_of_lt room)
  ⟨HasMagnitudes.sub re_re im_im room, HasMagnitudes.add re_im im_re room⟩

theorem IsBelow.conj (h : z.IsBelow b) (room : b ≤ maxDigits) : z.conj.IsBelow b :=
  ⟨h.re, HasMagnitudes.neg h.im room⟩

theorem isBelow_polar {r φ : K} (hr : Below n b r) (finite : Scalar.isFinite φ = true)
    (room : b ≤ maxDigits) : (polar r φ).IsBelow b :=
  ⟨HasMagnitudes.mul (forget hr) (cos finite) room, HasMagnitudes.mul (forget hr) (sin finite) room⟩

end Amplitude

/-! ## Matrices -/

namespace SquareMatrix

/-- All entries of a matrix are at most `2 ^ b`. -/
def IsBelow {k : Nat} (b : Nat) (m : SquareMatrix K k) : Prop :=
  ∀ i j, (m.entry i j).IsBelow b

variable {k : Nat} {m m' : SquareMatrix K k}

theorem IsBelow.mono (h : m.IsBelow b) (le : b ≤ c) : m.IsBelow c :=
  fun i j => (h i j).mono le

theorem isBelow_ofFn {f : Fin k → Fin k → Amplitude K} (h : ∀ i j, (f i j).IsBelow b) :
    (ofFn f).IsBelow b := by
  intro i j
  rw [entry_ofFn]
  exact h i j

/-- However many terms are added, a sum stays within sixty digits more than they have. -/
theorem isBelow_addOver {α : Type} {xs : List α} {f : α → Amplitude K}
    (terms : ∀ x ∈ xs, (f x).IsBelow b) (room : b + 60 ≤ maxDigits) {acc : Amplitude K}
    (start : acc.IsBelow (b + 60)) : (addOver acc xs f).IsBelow (b + 60) := by
  induction xs generalizing acc with
  | nil => exact start
  | cons x rest ih =>
    rcases List.forall_mem_cons.mp terms with ⟨first, others⟩
    exact ih others ⟨add_small start.re first.re room, add_small start.im first.im room⟩

theorem isBelow_traceMul (h : m.IsBelow b) (h' : m'.IsBelow c) (room : b + c + 61 ≤ maxDigits) :
    (traceMul m m').IsBelow (b + c + 61) := by
  have terms (j : Fin k) : ∀ i ∈ List.finRange k, (m.entry i j * m'.entry j i).IsBelow (b + c + 1) :=
    fun i _ => (h i j).mul (h' j i) (by omega)
  suffices columns : ∀ (js : List (Fin k)) (acc : Amplitude K), acc.IsBelow (b + c + 1 + 60) →
      (js.foldl (fun acc j => addOver acc (List.finRange k) fun i => m.entry i j * m'.entry j i)
        acc).IsBelow (b + c + 1 + 60) from
    columns (List.finRange k) 0 (Amplitude.isBelow_zero _)
  intro js
  induction js with
  | nil => exact fun acc start => start
  | cons j rest ih => exact fun acc start => ih _ (isBelow_addOver (terms j) (by omega) start)

end SquareMatrix

/-! ## States -/

namespace DensityMatrix

theorem isBelow_ghzKet (qubits : Nat) {i : Nat} (inside : i < basisSize qubits) :
    (ghzKet (K := K) qubits)[i].IsBelow 1 := by
  have root : Below true 1 (Scalar.sqrt (2 : K)) :=
    HasMagnitudes.sqrt (ofNat (k := 2) (b := 1) (Nat.le_refl 2) (by decide)) (by decide)
  have half : Below true 1 (Scalar.sqrt (2 : K) / 2) :=
    div_ofNat root (by decide) (by decide) (Nat.le_self_pow (by decide) 2)
  rw [ghzKet, Vector.getElem_ofFn]
  split
  · exact Amplitude.isBelow_ofScalar half
  · exact Amplitude.isBelow_zero 1

theorem isBelow_ghz (n : Nat) : (ghz n : DensityMatrix K).matrix.IsBelow 3 :=
  SquareMatrix.isBelow_ofFn fun i j =>
    (isBelow_ghzKet _ i.isLt).mul ((isBelow_ghzKet _ j.isLt).conj (by decide)) (by decide)

/-- Noise adds at most three digits. -/
theorem isBelow_depolarize {ρ : DensityMatrix K} (h : ρ.matrix.IsBelow b)
    (size : ρ.qubits ≤ maxQubits) (room : b + 3 ≤ maxDigits) (p : K) :
    (ρ.depolarize p).matrix.IsBelow (b + 3) := by
  have noise := clamp_depolarizing p
  have dimension : ρ.dimension ≤ 2 ^ maxDigits :=
    Nat.pow_le_pow_right (by decide) (Nat.le_trans size (by decide))
  have keep : Below false 1 (1 - Clamp.depolarizing p) :=
    HasMagnitudes.sub (below_one 0) noise (by decide)
  have mixed : Below true (b + 2) (Clamp.depolarizing p / Scalar.ofNat ρ.dimension) :=
    HasMagnitudes.mono (div_ofNat noise (by decide) (basisSize_pos _) dimension) (Nat.zero_le _)
  by_cases quiet : Scalar.eq (Clamp.depolarizing p) 0 = true
  · have same : ρ.depolarize p = ρ := if_pos quiet
    rw [same]
    exact h.mono (Nat.le_add_right b 3)
  · rw [depolarize, if_neg quiet]
    refine SquareMatrix.isBelow_ofFn fun i j => ?_
    have kept := (h i j).mul (Amplitude.isBelow_ofScalar keep) (show b + 1 < _ by omega)
    change (if i = j then _ else _ : Amplitude K).IsBelow _
    split
    · exact kept.add (Amplitude.isBelow_ofScalar mixed) (by omega)
    · exact kept.mono (Nat.le_succ _)

end DensityMatrix

/-! ## Terms -/

/-- The angles of a term are finite, and its sign is at most one. -/
structure Term.IsMeasurable (t : Term K) : Prop where
  angles : ∀ s, some s ∈ t.factors → s.isFinite = true
  sign : Below false 0 t.sign

theorem Setting.isBelow_observable {s : Setting K} (finite : s.isFinite = true) :
    s.observable.IsBelow 0 := by
  obtain ⟨theta, phi⟩ := Bool.and_eq_true_iff.mp finite
  refine SquareMatrix.isBelow_ofFn fun i j => ?_
  match i, j with
  | 0, 0 => exact Amplitude.isBelow_ofScalar (cos theta)
  | 0, 1 => exact Amplitude.isBelow_polar (sin theta) (angle_neg phi) (Nat.zero_le _)
  | 1, 0 => exact Amplitude.isBelow_polar (sin theta) phi (Nat.zero_le _)
  | 1, 1 => exact Amplitude.isBelow_ofScalar (HasMagnitudes.neg (cos theta) (Nat.zero_le _))

namespace Term

theorem isBelow_factorOperator {factor : Option (Setting K)}
    (finite : ∀ s ∈ factor, s.isFinite = true) : (factorOperator factor).IsBelow 0 := by
  cases factor with
  | some s => exact Setting.isBelow_observable (finite s rfl)
  | none =>
    refine SquareMatrix.isBelow_ofFn fun i j => ?_
    split
    · exact Amplitude.isBelow_ofScalar (below_one 0)
    · exact Amplitude.isBelow_zero 0

/-- Every factor adds at most one digit. -/
theorem isBelow_operatorFrom {factors : List (Option (Setting K))}
    (finite : ∀ s, some s ∈ factors → s.isFinite = true) {acc : Amplitude K}
    (start : acc.IsBelow b) (room : b + factors.length ≤ maxDigits) :
    (operatorFrom acc factors).IsBelow (b + factors.length) := by
  induction factors generalizing acc b with
  | nil => exact SquareMatrix.isBelow_ofFn fun _ _ => start
  | cons factor rest ih =>
    rw [List.length_cons] at room
    have first : (factorOperator factor).IsBelow 0 :=
      isBelow_factorOperator fun s same => finite s (same ▸ List.mem_cons_self)
    intro i j
    have product := start.mul (first (firstBit i) (firstBit j)) (show b + 0 < maxDigits by omega)
    have others := ih (fun s inside => finite s (List.mem_cons_of_mem _ inside)) product (by omega)
    rw [operatorFrom, entry_ofBlocks]
    exact (others (otherBits i) (otherBits j)).mono (Nat.le_of_eq (Nat.add_right_comm b 1 _))

theorem isBelow_operatorOf {factors : List (Option (Setting K))}
    (finite : ∀ s, some s ∈ factors → s.isFinite = true) (room : factors.length ≤ maxDigits) :
    (operatorOf factors).IsBelow factors.length := by
  have product := isBelow_operatorFrom finite (Amplitude.isBelow_ofScalar (below_one 0))
    (show 0 + factors.length ≤ maxDigits by omega)
  rwa [Nat.zero_add] at product

theorem IsMeasurable.below_expectation {t : Term K} (measurable : t.IsMeasurable)
    {ρ : DensityMatrix K} (size : t.qubits = ρ.qubits) (h : ρ.matrix.IsBelow b)
    (room : b + t.qubits + 61 ≤ maxDigits) :
    Below false (b + t.qubits + 61) (t.expectation ρ size) := by
  obtain ⟨q, m⟩ := ρ
  cases size
  have operator : t.operator.IsBelow t.qubits :=
    isBelow_operatorOf measurable.angles (show t.qubits ≤ maxDigits by omega)
  exact (SquareMatrix.isBelow_traceMul h operator room).re

end Term

end Nonlocal
