import Nonlocal.Proofs.Settings.Admission

/-!
What is wrong with a hypergraph plan.

`HypergraphPlan.violations` lists all demands that a plan does not meet: of the number of its axes
and of its target, of each axis, and of each hyperedge, there of each of its qubits. A plan is
refused with the first defect of this list, and admitted when there is none
(`HypergraphPlan.of_eq_report`).
Main statement: `HypergraphPlan.admits_or_reports_first`.
-/

namespace Nonlocal

variable {K : Type}

/-! ## Demands -/

/-- The defect of a demand that is not met. -/
def demand (met : Prop) [Decidable met] (defect : Defect K) : List (Defect K) :=
  if met then [] else [defect]

/-- The first of some defects as an error. -/
def report : List (Defect K) → Except (Error K) Unit
  | [] => .ok ()
  | defect :: _ => .error (.malformed defect)

theorem report_append (left right : List (Defect K)) :
    report (left ++ right) = report left >>= fun _ => report right := by
  cases left <;> rfl

theorem report_demand_append (met : Prop) [Decidable met] (defect : Defect K)
    (more : List (Defect K)) :
    report (demand met defect ++ more) = if met then report more else .error (.malformed defect) := by
  unfold demand
  split <;> rfl

theorem report_eq_error_iff {defects : List (Defect K)} {e : Error K} :
    report defects = .error e ↔ ∃ defect, defects.head? = some defect ∧ e = .malformed defect := by
  cases defects with
  | nil => exact ⟨nofun, fun ⟨_, absent, _⟩ => nomatch absent⟩
  | cons defect more =>
    constructor
    · rintro ⟨⟩
      exact ⟨defect, rfl, rfl⟩
    · rintro ⟨_, ⟨⟩, rfl⟩
      rfl

/-- The defects of all elements of a list, each with its position. -/
def defectsOf {α : Type} (defects : α → Nat → List (Defect K)) (index : Nat) (xs : List α) :
    List (Defect K) :=
  (xs.zipIdx index).flatMap fun entry => defects entry.1 entry.2

theorem defectsOf_cons {α : Type} (defects : α → Nat → List (Defect K)) (index : Nat) (x : α)
    (rest : List α) :
    defectsOf defects index (x :: rest) = defects x index ++ defectsOf defects (index + 1) rest :=
  rfl

/-- What is wrong with the choice of a setting on a qubit. It must not repeat a qubit of the choices
in front of it. -/
def choiceViolations (axes : List (AxisSet K)) (edge : Nat) (choices : List (UInt64 × String))
    (choice : UInt64 × String) (position : Nat) : List (Defect K) :=
  demand (choice.1.toNat < axes.length) (.edgeQubit edge choice.1.toNat axes.length)
    ++ demand (choice.1 ∉ (choices.take position).map Prod.fst) (.edgeRepeats edge choice.1.toNat)
    ++ demand (setting? axes choice).isSome (.edgeSelector edge choice.2 choice.1.toNat)

variable [Scalar K]

/-- What is wrong with the settings of the qubit in this position. -/
def AxisSet.violations (axis : AxisSet K) (index : Nat) : List (Defect K) :=
  demand axis.primary?.isSome (.axisWithoutPrimary index)
    ++ demand (axis.toList.all fun (_, s) => s.isFinite) (.axisNotFinite index)

/-- What is wrong with the hyperedge in this position. -/
def Hyperedge.violations (axes : List (AxisSet K)) (edge : Hyperedge K) (index : Nat) :
    List (Defect K) :=
  demand (edge.participants.length = edge.basis.length)
      (.edgeArity index edge.participants.length edge.basis.length)
    ++ demand (Scalar.eq edge.sign 1 || Scalar.eq edge.sign (-1)) (.edgeSign index edge.sign)
    ++ defectsOf (choiceViolations axes index edge.choices) 0 edge.choices

namespace HypergraphPlan

/-- What is wrong with a plan. -/
def violations (axes : List (AxisSet K)) (hyperedges : List (Hyperedge K)) (targetViolation : K) :
    List (Defect K) :=
  demand (1 ≤ axes.length ∧ axes.length ≤ DensityMatrix.maxQubits) (.axisCount axes.length)
    ++ demand (Scalar.isFinite targetViolation) .targetNotFinite
    ++ defectsOf AxisSet.violations 0 axes
    ++ defectsOf (Hyperedge.violations axes) 0 hyperedges

/-! ## The checks one by one -/

theorem checkAxis_eq_report (index : Nat) (axis : AxisSet K) :
    checkAxis index axis = report (axis.violations index) := by
  have finite : (axis.toList.any fun (_, s) => !s.isFinite) =
      !axis.toList.all fun (_, s) => s.isFinite := by
    rw [List.not_all_eq_any_not]
  unfold checkAxis AxisSet.violations
  rw [finite]
  cases axis.primary? with
  | none => rfl
  | some s => cases axis.toList.all fun (_, s) => s.isFinite <;> rfl

omit [Scalar K] in
theorem checkParticipants_eq_report (axes : List (AxisSet K)) (edge : Nat)
    (before rest : List (UInt64 × String)) (seen : List UInt64)
    (same : ∀ q, q ∈ seen ↔ q ∈ before.map Prod.fst) :
    checkParticipants axes edge seen rest =
      report (defectsOf (choiceViolations axes edge (before ++ rest)) before.length rest) := by
  -- The qubits that were seen are those of the choices in front, which grow by one in each step.
  induction rest generalizing before seen with
  | nil => rfl
  | cons choice rest ih =>
    obtain ⟨q, selector⟩ := choice
    have earlier : (before ++ (q, selector) :: rest).take before.length = before := List.take_left
    have later : ∀ q', q' ∈ q :: seen ↔ q' ∈ (before ++ [(q, selector)]).map Prod.fst := by
      intro q'
      rw [List.map_append, List.mem_append, List.mem_cons, same, or_comm]
      exact or_congr Iff.rfl List.mem_singleton.symm
    have tail := ih (before ++ [(q, selector)]) (q :: seen) later
    rw [List.append_assoc, List.length_append] at tail
    rw [defectsOf_cons, choiceViolations, earlier, List.append_assoc,
      List.append_assoc, report_demand_append, report_demand_append, report_demand_append,
      checkParticipants]
    cases found : axes[q.toNat]? with
    | none =>
      have outside : ¬q.toNat < axes.length := Nat.not_lt.mpr (List.getElem?_eq_none_iff.mp found)
      rw [if_neg outside]
    | some axis =>
      obtain ⟨inside, -⟩ := List.getElem?_eq_some_iff.mp found
      have chosen : setting? axes (q, selector) = axis[selector]? := by rw [setting?, found]; rfl
      rw [if_pos inside, chosen]
      by_cases repeated : q ∈ seen
      · rw [if_neg (Decidable.not_not.mpr ((same q).mp repeated))]
        exact if_pos repeated
      · rw [if_pos (mt (same q).mpr repeated)]
        cases named : axis[selector]? with
        | none => simp [repeated, named]
        | some s => simpa [repeated, named] using tail

theorem checkEdge_eq_report (axes : List (AxisSet K)) (index : Nat) (edge : Hyperedge K) :
    checkEdge axes index edge = report (edge.violations axes index) := by
  have choices := checkParticipants_eq_report axes index [] edge.choices [] (fun _ => Iff.rfl)
  unfold checkEdge Hyperedge.violations
  rw [List.append_assoc, report_demand_append, report_demand_append, ite_not]
  split
  · cases Scalar.eq edge.sign 1 || Scalar.eq edge.sign (-1) with
    | false => rfl
    | true => exact choices
  · rfl

omit [Scalar K] in
theorem checkAll_eq_report {α : Type} {check : Nat → α → Except (Error K) Unit}
    {defects : α → Nat → List (Defect K)} (spec : ∀ i x, check i x = report (defects x i))
    (index : Nat) (xs : List α) :
    checkAll check index xs = report (defectsOf defects index xs) := by
  induction xs generalizing index with
  | nil => rfl
  | cons x rest ih =>
    rw [checkAll, spec, ih, defectsOf_cons, report_append]

/-! ## Admission -/

theorem of_eq_report (axes : List (AxisSet K)) (hyperedges : List (Hyperedge K))
    (targetViolation : K) :
    of axes hyperedges targetViolation =
      (report (violations axes hyperedges targetViolation)).map fun _ =>
        ⟨axes, hyperedges, targetViolation⟩ := by
  have counted : (axes.isEmpty || decide (DensityMatrix.maxQubits < axes.length)) =
      !decide (1 ≤ axes.length ∧ axes.length ≤ DensityMatrix.maxQubits) := by
    rw [Bool.eq_iff_iff]
    cases axes <;> simp
  unfold of violations
  rw [List.append_assoc, List.append_assoc, report_demand_append, report_demand_append,
    report_append, ← checkAll_eq_report checkAxis_eq_report,
    ← checkAll_eq_report (checkEdge_eq_report axes), counted]
  by_cases few : 1 ≤ axes.length ∧ axes.length ≤ DensityMatrix.maxQubits
  · rw [if_pos few, decide_eq_true few]
    cases Scalar.isFinite targetViolation with
    | false => rfl
    | true =>
      cases checkAll checkAxis 0 axes with
      | error e => rfl
      | ok u => cases checkAll (checkEdge axes) 0 hyperedges <;> rfl
  · rw [if_neg few, decide_eq_false few]
    rfl

/-- Exactly the sound plans are admitted, as they are; any other one is refused with the first of
its defects, in the order of the number of axes, the target, the axes and the hyperedges. -/
theorem admits_or_reports_first (axes : List (AxisSet K)) (hyperedges : List (Hyperedge K))
    (targetViolation : K) :
    (∀ plan, of axes hyperedges targetViolation = .ok plan ↔
      plan = ⟨axes, hyperedges, targetViolation⟩ ∧ plan.IsSound) ∧
    ∀ e, of axes hyperedges targetViolation = .error e ↔
      ∃ defect, (violations axes hyperedges targetViolation).head? = some defect ∧
        e = .malformed defect := by
  refine ⟨fun plan => of_eq_ok_iff, fun e => ?_⟩
  rw [of_eq_report, ← report_eq_error_iff]
  cases report (violations axes hyperedges targetViolation) with
  | ok u => exact ⟨nofun, nofun⟩
  | error e' => constructor <;> rintro ⟨⟩ <;> rfl

end HypergraphPlan

end Nonlocal
