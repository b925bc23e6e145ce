import Nonlocal.Settings.Basic

/-!
Which hypergraph plans are admitted.

The checks of `HypergraphPlan.of` are read back as a predicate on the plan: `HypergraphPlan.IsSound`
says that the axes can be simulated and that every hyperedge resolves. A plan is admitted exactly if
it is sound (`HypergraphPlan.of_eq_ok_iff`), and then it holds the parts that it was made from.
-/

namespace Nonlocal

variable {K : Type}

/-- The setting that a hyperedge chooses on one of its qubits. -/
def setting? (axes : List (AxisSet K)) (choice : UInt64 × String) : Option (Setting K) :=
  axes[choice.1.toNat]?.bind (·[choice.2]?)

/-- The qubits of a hyperedge, each with the name of the setting chosen on it. -/
def Hyperedge.choices (edge : Hyperedge K) : List (UInt64 × String) :=
  edge.participants.zip edge.basis

variable [Scalar K]

/-- A qubit has its primary setting, and all of its settings are finite. -/
structure AxisSet.IsSound (axis : AxisSet K) : Prop where
  primary : axis.primary?.isSome = true
  finite : ∀ (name : String) (s : Setting K), axis[name]? = some s → s.isFinite = true

/-- A hyperedge has a sign of size one, and chooses settings on different qubits that exist. -/
structure Hyperedge.IsSound (axes : List (AxisSet K)) (edge : Hyperedge K) : Prop where
  arity : edge.participants.length = edge.basis.length
  sign : (Scalar.eq edge.sign 1 || Scalar.eq edge.sign (-1)) = true
  resolved : ∀ choice ∈ edge.choices, (setting? axes choice).isSome = true
  distinct : (edge.choices.map Prod.fst).Nodup

/-- The axes of a plan can be simulated, and its hyperedges resolve against them. -/
structure HypergraphPlan.IsSound (plan : HypergraphPlan K) : Prop where
  nonempty : 1 ≤ plan.dims
  bounded : plan.dims ≤ DensityMatrix.maxQubits
  target : Scalar.isFinite plan.targetViolation = true
  axes : ∀ axis ∈ plan.axes, AxisSet.IsSound axis
  hyperedges : ∀ edge ∈ plan.hyperedges, edge.IsSound plan.axes

namespace HypergraphPlan

/-! ## The checks one by one -/

theorem checkAxis_eq_ok_iff (index : Nat) (axis : AxisSet K) :
    checkAxis index axis = .ok () ↔ AxisSet.IsSound axis := by
  have named (P : Setting K → Prop) :
      (∀ entry ∈ axis.toList, P entry.2) ↔ ∀ (name : String) s, axis[name]? = some s → P s := by
    simp only [Prod.forall, Std.ExtTreeMap.mem_toList_iff_getElem?_eq_some]
  unfold checkAxis
  split
  · next missing =>
    refine ⟨nofun, fun sound => ?_⟩
    rw [Option.isNone_iff_eq_none] at missing
    simpa [missing] using sound.primary
  · next present =>
    have primary : axis.primary?.isSome = true := by simpa [Option.isSome_iff_ne_none] using present
    split
    · next bad =>
      refine ⟨nofun, fun sound => ?_⟩
      obtain ⟨entry, inside, infinite⟩ := List.any_eq_true.mp bad
      have finite := (named (·.isFinite = true)).mpr sound.finite entry inside
      simp [finite] at infinite
    · next good =>
      have finite : ∀ entry ∈ axis.toList, entry.2.isFinite = true := by
        intro entry inside
        simpa using List.any_eq_false.mp (Bool.eq_false_iff.mpr good) entry inside
      exact ⟨fun _ => ⟨primary, (named (·.isFinite = true)).mp finite⟩, fun _ => rfl⟩

omit [Scalar K] in
/-- The check of the qubits of a hyperedge, with those before them already seen. -/
theorem checkParticipants_eq_ok_iff (axes : List (AxisSet K)) (edge : Nat) (seen : List UInt64)
    (choices : List (UInt64 × String)) :
    checkParticipants axes edge seen choices = .ok () ↔
      (∀ choice ∈ choices, (setting? axes choice).isSome = true ∧ choice.1 ∉ seen) ∧
        (choices.map Prod.fst).Nodup := by
  -- A qubit must differ from those before it, which are in `seen` once the recursion is past them.
  induction choices generalizing seen with
  | nil => simp [checkParticipants]
  | cons choice rest ih =>
    obtain ⟨q, selector⟩ := choice
    rw [checkParticipants]
    cases found : axes[q.toNat]? with
    | none => simp [setting?, found]
    | some axis =>
      have chosen : setting? axes (q, selector) = axis[selector]? := by simp [setting?, found]
      by_cases repeated : q ∈ seen
      · simp [repeated]
      · cases named : axis[selector]? with
        | none => simp [repeated, chosen, named]
        | some s =>
          simp only [repeated, named, if_false, Option.isNone_some, Bool.false_eq_true, ih,
            List.mem_cons, List.map_cons, List.nodup_cons, List.mem_map]
          grind

theorem checkEdge_eq_ok_iff (axes : List (AxisSet K)) (index : Nat) (edge : Hyperedge K) :
    checkEdge axes index edge = .ok () ↔ edge.IsSound axes := by
  unfold checkEdge
  split
  · next uneven => exact ⟨nofun, fun sound => absurd sound.arity uneven⟩
  · next even =>
    have arity : edge.participants.length = edge.basis.length := Decidable.not_not.mp even
    split
    · next unsigned => exact ⟨nofun, fun sound => by simp [sound.sign] at unsigned⟩
    · next signed =>
      rw [Bool.not_eq_true, Bool.not_eq_false'] at signed
      rw [checkParticipants_eq_ok_iff]
      constructor
      · rintro ⟨resolved, distinct⟩
        exact ⟨arity, signed, fun choice inside => (resolved choice inside).1, distinct⟩
      · intro sound
        exact ⟨fun choice inside => ⟨sound.resolved choice inside, List.not_mem_nil⟩,
          sound.distinct⟩

omit [Scalar K] in
/-- A check that does not depend on the position succeeds on a list if it does on its elements. -/
theorem checkAll_eq_ok_iff {α : Type} {check : Nat → α → Except (Error K) Unit} {P : α → Prop}
    (spec : ∀ i x, check i x = .ok () ↔ P x) (index : Nat) (xs : List α) :
    checkAll check index xs = .ok () ↔ ∀ x ∈ xs, P x := by
  induction xs generalizing index with
  | nil => simp [checkAll]
  | cons x rest ih =>
    rw [checkAll, List.forall_mem_cons, ← spec index x, ← ih (index + 1)]
    cases check index x with
    | error e => exact ⟨nofun, fun both => nomatch both.1⟩
    | ok u => exact (and_iff_right rfl).symm

/-! ## Admission -/

/-- A plan is made if every check succeeds, from the parts that were given. -/
theorem of_eq_ok_iff_checks {axes : List (AxisSet K)} {hyperedges : List (Hyperedge K)}
    {targetViolation : K} {plan : HypergraphPlan K} :
    of axes hyperedges targetViolation = .ok plan ↔
      plan = ⟨axes, hyperedges, targetViolation⟩ ∧
      (axes.isEmpty || decide (DensityMatrix.maxQubits < axes.length)) = false ∧
      Scalar.isFinite targetViolation = true ∧
      checkAll checkAxis 0 axes = .ok () ∧ checkAll (checkEdge axes) 0 hyperedges = .ok () := by
  unfold of
  simp only [bind, Except.bind, throw, throwThe, MonadExceptOf.throw, pure, Except.pure]
  split
  · next many => simp [many]
  · next few =>
    split
    · next infinite =>
      rw [Bool.not_eq_true'] at infinite
      simp [infinite]
    · next finite =>
      cases checkAll checkAxis 0 axes with
      | error e => simp
      | ok u =>
        cases checkAll (checkEdge axes) 0 hyperedges with
        | error e => simp
        | ok u =>
          rw [Bool.not_eq_true, Bool.not_eq_false'] at finite
          rw [Bool.not_eq_true] at few
          simp [few, finite, eq_comm]

/-- Exactly the sound plans are admitted, as they are. -/
theorem of_eq_ok_iff {axes : List (AxisSet K)} {hyperedges : List (Hyperedge K)}
    {targetViolation : K} {plan : HypergraphPlan K} :
    of axes hyperedges targetViolation = .ok plan ↔
      plan = ⟨axes, hyperedges, targetViolation⟩ ∧ plan.IsSound := by
  have counted : (axes.isEmpty || decide (DensityMatrix.maxQubits < axes.length)) = false ↔
      1 ≤ axes.length ∧ axes.length ≤ DensityMatrix.maxQubits := by
    cases axes <;> simp
  rw [of_eq_ok_iff_checks, counted, checkAll_eq_ok_iff checkAxis_eq_ok_iff,
    checkAll_eq_ok_iff (checkEdge_eq_ok_iff axes)]
  constructor
  · rintro ⟨rfl, ⟨nonempty, bounded⟩, target, sound, resolved⟩
    exact ⟨rfl, nonempty, bounded, target, sound, resolved⟩
  · rintro ⟨rfl, sound⟩
    exact ⟨rfl, ⟨sound.nonempty, sound.bounded⟩, sound.target, sound.axes, sound.hyperedges⟩

end HypergraphPlan

end Nonlocal
