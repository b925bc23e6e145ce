import Nonlocal.Proofs.Chaos.RealFlow
import Nonlocal.Proofs.Exact.Sign

/-!
Symmetries of the flows.

A reflection turns some of the axes around. A field that commutes with a reflection is integrated
to a flow that commutes with it, because every operation of a step does: the stages move a point
along slopes (`Reflection.advance_apply`), a step combines the stages (`Reflection.step_apply`), and
the integration repeats the step (`Reflection.integrate_apply`). The Lorenz system commutes with the
half turn about its third axis, and Chua's oscillator with the reflection at the origin. Main
statement: `flows_keep_symmetries`.
-/

namespace Nonlocal

open Exact

/-! ## Reflections -/

/-- The axes that are turned around. -/
structure Reflection where
  x : Bool
  y : Bool
  z : Bool

namespace Reflection

/-- The opposite number, if the axis is turned around. -/
noncomputable def turn (around : Bool) (x : Exact) : Exact :=
  if around then -x else x

theorem turn_add (around : Bool) (x y : Exact) :
    turn around x + turn around y = turn around (x + y) := by
  cases around
  · rfl
  · exact (Exact.neg_add x y).symm

theorem turn_mul (around : Bool) (x y : Exact) : turn around x * y = turn around (x * y) := by
  cases around
  · rfl
  · exact Exact.neg_mul x y

theorem mul_turn (around : Bool) (x y : Exact) : x * turn around y = turn around (x * y) := by
  cases around
  · rfl
  · exact Exact.mul_neg x y

/-- The point on the other side. -/
noncomputable def apply (r : Reflection) (p : Vec3 Exact) : Vec3 Exact :=
  ⟨turn r.x p.x, turn r.y p.y, turn r.z p.z⟩

/-- The slopes at reflected points are the reflected slopes. -/
def IsSymmetryOf (r : Reflection) (field : Field Exact) : Prop :=
  ∀ p, field (r.apply p) = r.apply (field p)

variable {r : Reflection} {field : Field Exact}

theorem advance_apply (r : Reflection) (p slope : Vec3 Exact) (scale : Exact) :
    Field.advance (r.apply p) (r.apply slope) scale = r.apply (Field.advance p slope scale) := by
  simp only [Field.advance, apply, turn_mul, turn_add]

theorem step_apply (symmetric : r.IsSymmetryOf field) (h : Exact) (p : Vec3 Exact) :
    field.step h (r.apply p) = r.apply (field.step h p) := by
  simp only [Field.step, symmetric _, advance_apply]
  simp only [apply, mul_turn, turn_add]

theorem repeat_apply (symmetric : r.IsSymmetryOf field) (h : Exact) (n : ℕ) (p : Vec3 Exact) :
    Nat.repeat (field.step h) n (r.apply p) = r.apply (Nat.repeat (field.step h) n p) := by
  induction n with
  | zero => rfl
  | succ n ih =>
    change field.step h (Nat.repeat (field.step h) n (r.apply p)) = _
    rw [ih, step_apply symmetric]
    rfl

/-- A flow keeps the symmetries of its field, over any span of time. -/
theorem integrate_apply (symmetric : r.IsSymmetryOf field) (span : TimeSpan Exact)
    (p : Vec3 Exact) : field.integrate span (r.apply p) = r.apply (field.integrate span p) :=
  repeat_apply symmetric span.stepSize span.stepCount p

/-- The half turn about the third axis. -/
def halfTurn : Reflection := ⟨true, true, false⟩

/-- The reflection at the origin. -/
def inversion : Reflection := ⟨true, true, true⟩

theorem isSymmetryOf_lorenz (s : Lorenz Exact) : halfTurn.IsSymmetryOf s.field := by
  intro p
  change (⟨s.sigma * (-p.y - -p.x), -p.x * (s.rho - p.z) - -p.y,
    -p.x * -p.y - s.beta * p.z⟩ : Vec3 Exact) = ⟨-_, -_, _⟩
  rw [neg_sub_opposite, Exact.mul_neg, Exact.neg_mul, neg_sub_opposite, Exact.neg_mul,
    Exact.mul_neg, Exact.neg_neg]
  rfl

theorem diode_neg (s : Chua Exact) (x : Exact) : s.diode (-x) = -s.diode x := by
  have right : Scalar.abs (-x + 1) = Scalar.abs (x - 1) := by
    rw [← abs_opposite (x - 1), Exact.neg_sub, Exact.add_comm]
    rfl
  have left : Scalar.abs (-x - 1) = Scalar.abs (x + 1) := by
    rw [← abs_opposite (x + 1), Exact.neg_add]
    rfl
  have exchanged : Scalar.abs (x - 1) - Scalar.abs (x + 1) =
      -(Scalar.abs (x + 1) - Scalar.abs (x - 1)) := (Exact.neg_sub _ _).symm
  rw [Chua.diode, right, left, exchanged, Exact.mul_neg, Exact.mul_neg, ← Exact.neg_add]
  rfl

theorem isSymmetryOf_chua (s : Chua Exact) : inversion.IsSymmetryOf s.field := by
  intro p
  change (⟨s.alpha * (-p.y - -p.x - s.diode (-p.x)), -p.x - -p.y + -p.z,
    -s.beta * -p.y - s.gamma * -p.z⟩ : Vec3 Exact) = ⟨-_, -_, -_⟩
  rw [diode_neg, neg_sub_opposite, neg_sub_opposite, neg_sub_opposite, Exact.mul_neg,
    ← Exact.neg_add, Exact.mul_neg, Exact.mul_neg, neg_sub_opposite]
  rfl

/-! ## Points that stay where they are -/

theorem neg_finite_eq_iff {x : ℝ} : -finite x = finite x ↔ x = 0 := by
  rw [neg_finite, finite.injEq, neg_eq_self]

theorem halfTurn_fixes_iff {v : Fin 3 → ℝ} :
    halfTurn.apply (.ofReal v) = .ofReal v ↔ v 0 = 0 ∧ v 1 = 0 := by
  change (⟨-finite (v 0), -finite (v 1), finite (v 2)⟩ : Vec3 Exact) =
    ⟨finite (v 0), finite (v 1), finite (v 2)⟩ ↔ _
  rw [Vec3.mk.injEq, neg_finite_eq_iff, neg_finite_eq_iff, eq_self, and_true]

theorem inversion_fixes_iff {v : Fin 3 → ℝ} :
    inversion.apply (.ofReal v) = .ofReal v ↔ v 0 = 0 ∧ v 1 = 0 ∧ v 2 = 0 := by
  change (⟨-finite (v 0), -finite (v 1), -finite (v 2)⟩ : Vec3 Exact) =
    ⟨finite (v 0), finite (v 1), finite (v 2)⟩ ↔ _
  rw [Vec3.mk.injEq, neg_finite_eq_iff, neg_finite_eq_iff, neg_finite_eq_iff]

/-- Points that a symmetry leaves where they are flow to such points. -/
theorem exists_fixed_integrate (symmetric : r.IsSymmetryOf field)
    {f : (Fin 3 → ℝ) → Fin 3 → ℝ} (slopes : field.HasSlopes f) (span : TimeSpan Exact) {a b : ℝ}
    (start : span.start = finite a) (finish : span.finish = finite b) {v : Fin 3 → ℝ}
    (fixed : r.apply (.ofReal v) = .ofReal v) :
    ∃ w, field.integrate span (.ofReal v) = .ofReal w ∧ r.apply (.ofReal w) = .ofReal w := by
  have image := Field.integrate_ofReal slopes start finish v
  refine ⟨_, image, ?_⟩
  rw [← image, ← integrate_apply symmetric, fixed]

end Reflection

/-- Symmetries of the integrated flows, for all parameters, points and spans. The Lorenz flow
commutes with the half turn about its third axis, and Chua's flow with the inversion. Over a span
with real ends, real parameters take real points to real points, and among them the third axis and
the origin to themselves. -/
theorem flows_keep_symmetries :
    (∀ (s : Lorenz Exact) (span : TimeSpan Exact) (p : Vec3 Exact),
      let q := s.field.integrate span p
      s.field.integrate span ⟨-p.x, -p.y, p.z⟩ = ⟨-q.x, -q.y, q.z⟩) ∧
    (∀ (s : Chua Exact) (span : TimeSpan Exact) (p : Vec3 Exact),
      let q := s.field.integrate span p
      s.field.integrate span ⟨-p.x, -p.y, -p.z⟩ = ⟨-q.x, -q.y, -q.z⟩) ∧
    ∀ (start finish : ℝ) (samples substeps : UInt64),
      let span : TimeSpan Exact := ⟨finite start, finite finish, samples, substeps⟩
      (∀ sigma rho beta : ℝ,
        let flow := (Lorenz.field ⟨finite sigma, finite rho, finite beta⟩).integrate span
        (∀ v, ∃ w, flow (.ofReal v) = .ofReal w) ∧
          ∀ z : ℝ, ∃ z' : ℝ, flow ⟨0, 0, finite z⟩ = ⟨0, 0, finite z'⟩) ∧
      ∀ alpha beta gamma m0 m1 : ℝ,
        let flow := (Chua.field ⟨finite alpha, finite beta, finite gamma, finite m0,
          finite m1⟩).integrate span
        (∀ v, ∃ w, flow (.ofReal v) = .ofReal w) ∧ flow ⟨0, 0, 0⟩ = ⟨0, 0, 0⟩ := by
  refine ⟨fun s => Reflection.integrate_apply (Reflection.isSymmetryOf_lorenz s),
    fun s => Reflection.integrate_apply (Reflection.isSymmetryOf_chua s),
    fun start finish samples substeps => ⟨fun sigma rho beta => ?lorenz,
      fun alpha beta gamma m0 m1 => ?chua⟩⟩
  case lorenz =>
    have slopes := Lorenz.hasSlopes sigma rho beta
    refine ⟨fun v => ⟨_, Field.integrate_ofReal slopes rfl rfl v⟩, fun z => ?_⟩
    obtain ⟨w, image, fixed⟩ := Reflection.exists_fixed_integrate
      (Reflection.isSymmetryOf_lorenz _) slopes ⟨finite start, finite finish, samples, substeps⟩
      rfl rfl (v := ![0, 0, z]) (Reflection.halfTurn_fixes_iff.mpr ⟨rfl, rfl⟩)
    obtain ⟨first, second⟩ := Reflection.halfTurn_fixes_iff.mp fixed
    refine ⟨w 2, ?_⟩
    rw [zero_eq]
    refine image.trans ?_
    rw [Vec3.ofReal, first, second]
  case chua =>
    have slopes := Chua.hasSlopes alpha beta gamma m0 m1
    refine ⟨fun v => ⟨_, Field.integrate_ofReal slopes rfl rfl v⟩, ?_⟩
    obtain ⟨w, image, fixed⟩ := Reflection.exists_fixed_integrate
      (Reflection.isSymmetryOf_chua _) slopes ⟨finite start, finite finish, samples, substeps⟩
      rfl rfl (v := ![0, 0, 0]) (Reflection.inversion_fixes_iff.mpr ⟨rfl, rfl, rfl⟩)
    obtain ⟨first, second, third⟩ := Reflection.inversion_fixes_iff.mp fixed
    rw [zero_eq]
    refine image.trans ?_
    rw [Vec3.ofReal, first, second, third]

end Nonlocal
