import Nonlocal.Proofs.Register.Magnitude
import Nonlocal.Proofs.Report.RoundTrip
import Nonlocal.Proofs.Run.Failure

/-!
Whatever a correlator run measures is finite.

The correlators of a register of ten qubits are sums of a million products, and their signed sum may
have any number of terms; still no bound on the way is close to where binary64 overflows. From the
bounds of one measurement (`Run.allFinite_measured`) follow those of the outcomes, and from these
that every number in the report of a run is finite, apart from the noise which is repeated from the
options (`Run.allFinite_measured_of_run`).
-/

namespace Nonlocal

open HasMagnitudes

variable {K : Type} [Numerics K] [HasMagnitudes K]

/-! ## Correlators -/

namespace Correlators

/-- The number of binary digits that a correlator can have in front of the point. -/
def valueDigits : Nat := 77

/-- The values and the signs of correlators are bounded, and with them the exact sum. -/
structure IsBelow (c : Correlators K) : Prop where
  values : ∀ v ∈ c.values, Below false valueDigits v
  signs : ∀ s ∈ c.signs, Below false 0 s
  exact : Below false (valueDigits + 60) c.exact

theorem below_signedSum {b : Nat} {signs values : List K} (small : ∀ s ∈ signs, Below false 0 s)
    (bounded : ∀ v ∈ values, Below false b v) (room : b + 60 ≤ maxDigits) :
    Below false (b + 60) (signedSum signs values) := by
  have terms : ∀ p ∈ signs.zip values, Below false b (p.1 * p.2) := by
    intro p inside
    obtain ⟨sign, value⟩ := List.of_mem_zip inside
    exact HasMagnitudes.mono (HasMagnitudes.mul (small _ sign) (bounded _ value) (by omega))
      (Nat.le_of_eq (Nat.zero_add b))
  exact below_foldl terms room (forget (below_zero _))

variable {ρ : DensityMatrix K} {terms : List (Term K)}

theorem below_valuesFrom (state : ρ.matrix.IsBelow 6) (size : ρ.qubits ≤ DensityMatrix.maxQubits)
    (measurable : ∀ t ∈ terms, t.IsMeasurable) {index : Nat} {values : List K}
    (found : valuesFrom ρ index terms = .ok values) : ∀ v ∈ values, Below false valueDigits v := by
  induction terms generalizing index values with
  | nil =>
    cases found
    exact List.forall_mem_nil _
  | cons t rest ih =>
    obtain ⟨first, others⟩ := List.forall_mem_cons.mp measurable
    rw [valuesFrom] at found
    split at found
    · next fits =>
      obtain ⟨later, foundLater, same⟩ := Json.bind_eq_ok.mp found
      cases same
      have ten : t.qubits ≤ 10 := Nat.le_trans (Nat.le_of_eq fits) size
      have digits : 6 + t.qubits + 61 ≤ valueDigits :=
        Nat.add_le_add_right (Nat.add_le_add_left ten 6) 61
      have value := first.below_expectation fits state (Nat.le_trans digits (by decide))
      exact List.forall_mem_cons.mpr ⟨HasMagnitudes.mono value digits, ih others foundLater⟩
    · cases found

theorem isBelow_of_evaluate (state : ρ.matrix.IsBelow 6)
    (size : ρ.qubits ≤ DensityMatrix.maxQubits) (measurable : ∀ t ∈ terms, t.IsMeasurable)
    {c : Correlators K} (evaluated : evaluate ρ terms = .ok c) : c.IsBelow := by
  obtain ⟨values, found, same⟩ := Json.bind_eq_ok.mp evaluated
  cases same
  have bounded := below_valuesFrom state size measurable found
  have signs : ∀ s ∈ terms.map Term.sign, Below false 0 s :=
    List.forall_mem_map.mpr fun t inside => (measurable t inside).sign
  exact ⟨bounded, signs, below_signedSum signs bounded (by decide)⟩

/-- Terms that are evaluated in an entangled state with noise. -/
theorem isBelow_of_evaluate_ghz {n : Nat} {p : K} (measurable : ∀ t ∈ terms, t.IsMeasurable)
    {c : Correlators K}
    (evaluated : evaluate ((DensityMatrix.ghz n).depolarize p) terms = .ok c) : c.IsBelow := by
  have size : (DensityMatrix.ghz n : DensityMatrix K).qubits ≤ DensityMatrix.maxQubits :=
    DensityMatrix.clampQubits_le n
  have state := DensityMatrix.isBelow_depolarize (DensityMatrix.isBelow_ghz n) size (by decide) p
  exact isBelow_of_evaluate state
    (Nat.le_trans (Nat.le_of_eq (DensityMatrix.qubits_depolarize _ p)) size) measurable evaluated

end Correlators

/-! ## Measurements -/

namespace Sampler

/-- The excess of one outcome has at most as many digits as there are in a count. -/
theorem below_excess {plus shots : Nat} (some_shot : 0 < shots) (counted : shots < 2 ^ 64)
    (le : plus ≤ shots) : Below false 65 (excess plus shots : K) := by
  have left : Below true 64 (Scalar.ofNat plus : K) := ofNat (by omega) (by decide)
  have right : Below true 64 (Scalar.ofNat (shots - plus) : K) := ofNat (by omega) (by decide)
  have divisor : shots ≤ 2 ^ maxDigits :=
    Nat.le_trans (Nat.le_of_lt counted) (Nat.pow_le_pow_right (by decide) (by decide))
  exact div_ofNat (HasMagnitudes.sub left right (by decide)) (by decide) some_shot divisor

theorem shots_pos (shots : UInt64) : 0 < Nat.max 1 shots.toNat :=
  Nat.le_max_left 1 _

theorem shots_lt (shots : UInt64) : Nat.max 1 shots.toNat < 2 ^ 64 :=
  Nat.max_lt.mpr ⟨by decide, shots.toNat_lt⟩

theorem below_estimates (shots : UInt64) (es : List K) (g : Generator) :
    ∀ v ∈ (estimates shots es g).1, Below false 65 v := by
  induction es generalizing g with
  | nil => exact List.forall_mem_nil _
  | cons e rest ih =>
    exact List.forall_mem_cons.mpr
      ⟨below_excess (shots_pos shots) (shots_lt shots) (counted_le _ _ g), ih _⟩

end Sampler

namespace Confidence

theorem below_halfWidth (e : K) (shots : UInt64) :
    Below true 4 (halfWidth e shots Run.confidenceLevel) := by
  have square : Below true 0 (Clamp.expectation e * Clamp.expectation e) :=
    HasMagnitudes.square (clamp_expectation e) (by decide)
  have divisor : Nat.max 1 shots.toNat ≤ 2 ^ maxDigits :=
    Nat.le_trans (Nat.le_of_lt (Sampler.shots_lt shots))
      (Nat.pow_le_pow_right (by decide) (by decide))
  have variance := div_ofNat (one_sub square) (by decide) (Sampler.shots_pos shots) divisor
  have deviation := HasMagnitudes.sqrt variance (by decide)
  exact HasMagnitudes.mul HasMagnitudes.deviations deviation (by decide)

end Confidence

namespace Run

theorem below_jointHalfWidth (values : List K) (shots : UInt64) :
    Below true 68 (jointHalfWidth values shots) := by
  have squares : ∀ e ∈ values, Below true 8
      (Confidence.halfWidth e shots confidenceLevel *
        Confidence.halfWidth e shots confidenceLevel) :=
    fun e _ => HasMagnitudes.square (Confidence.below_halfWidth e shots) (by decide)
  exact HasMagnitudes.sqrt (below_foldl squares (by decide) (below_zero 68)) (by decide)

/-- The numbers of a measurement. -/
def Measurement.numbers {K : Type} (m : Measurement K) : List K :=
  [m.correlators.exact, m.sampled, m.confidence] ++ m.correlators.values ++ m.estimates

theorem allFinite_measured {c : Correlators K} (bounded : c.IsBelow) (terms : Nat) (shots : Int64)
    (g : Generator) : AllFinite (measured c terms shots g).1.numbers := by
  have estimates := Sampler.below_estimates (Clamp.shotsPerTerm shots terms)
    (c.values.take c.signs.length) g
  have sampled := Correlators.below_signedSum bounded.signs estimates (by decide)
  have confidence := below_jointHalfWidth c.values (Clamp.shotsPerTerm shots terms)
  simp only [Measurement.numbers, allFinite_append, allFinite_cons, allFinite_nil, and_true]
  refine ⟨⟨⟨isFinite bounded.exact, isFinite sampled, isFinite confidence⟩, ?_⟩, ?_⟩
  · exact fun v inside => isFinite (bounded.values v inside)
  · exact fun v inside => isFinite (estimates v inside)

end Run

/-! ## Outcomes -/

theorem TwoPartyPlan.isMeasurable_terms {plan : TwoPartyPlan K} (finite : plan.isFinite = true) :
    ∀ t ∈ plan.terms, t.IsMeasurable := by
  simp only [isFinite, List.all_cons, List.all_nil, Bool.and_true, Bool.and_eq_true] at finite
  obtain ⟨first, second, first', second', -, -⟩ := finite
  have planar {x : K} (angle : Scalar.isFinite x = true) : (Setting.planar x).isFinite = true :=
    Bool.and_eq_true_iff.mpr ⟨angle, HasMagnitudes.isFinite (below_zero 0)⟩
  have pair {x y sign : K} (left : Scalar.isFinite x = true) (right : Scalar.isFinite y = true)
      (small : Below false 0 sign) :
      (Term.pair (.planar x) (.planar y) sign).IsMeasurable := by
    refine ⟨fun s inside => ?_, small⟩
    simp only [Term.pair, List.mem_cons, Option.some.injEq, List.not_mem_nil, or_false] at inside
    obtain rfl | rfl := inside
    · exact planar left
    · exact planar right
  have plus : Below false 0 (1 : K) := forget (below_one 0)
  have minus : Below false 0 (-1 : K) := HasMagnitudes.neg plus (by decide)
  simp only [terms, chshTerms, List.forall_mem_cons]
  exact ⟨pair first first' plus, pair second first' plus, pair first second' plus,
    pair second second' minus, List.forall_mem_nil _⟩

namespace HypergraphPlan

variable {plan : HypergraphPlan K}

theorem IsSound.isMeasurable_terms (sound : plan.IsSound) :
    ∀ t ∈ plan.resolvedTerms, t.IsMeasurable := by
  refine List.forall_mem_map.mpr fun edge inside => ?_
  have soundEdge := sound.hyperedges edge inside
  refine ⟨fun s measured => ?_, HasMagnitudes.unit soundEdge.sign⟩
  have chosen := List.reduceOption_mem_iff.mpr measured
  exact isFinite_of_mem_settings sound.axes (soundEdge.perm_settings.mem_iff.mp chosen)

theorem allFinite_direction {s : Setting K} (finite : s.isFinite = true) :
    AllFinite s.direction.toList := by
  obtain ⟨theta, phi⟩ := Bool.and_eq_true_iff.mp finite
  have product {x y : K} (left : Below false 0 x) (right : Below false 0 y) :
      Scalar.isFinite (x * y) = true :=
    HasMagnitudes.isFinite (HasMagnitudes.mul left right (by decide))
  simp only [Setting.direction, Vec3.toList, allFinite_cons, allFinite_nil, and_true]
  exact ⟨product (sin theta) (cos phi), product (sin theta) (sin phi),
    HasMagnitudes.isFinite (cos theta)⟩

theorem allFinite_primaryDirectionsFrom {axes : List (AxisSet K)}
    (sound : ∀ axis ∈ axes, AxisSet.IsSound axis) {index : Nat} {directions : List (Vec3 K)}
    (shown : primaryDirectionsFrom index axes = .ok directions) :
    ∀ v ∈ directions, AllFinite v.toList := by
  induction axes generalizing index directions with
  | nil =>
    cases shown
    exact List.forall_mem_nil _
  | cons axis rest ih =>
    obtain ⟨first, others⟩ := List.forall_mem_cons.mp sound
    obtain ⟨s, present⟩ := Option.isSome_iff_exists.mp first.primary
    rw [primaryDirectionsFrom, present] at shown
    obtain ⟨later, shownLater, same⟩ := Json.bind_eq_ok.mp shown
    cases same
    exact List.forall_mem_cons.mpr
      ⟨allFinite_direction (first.finite primarySelector s present), ih others shownLater⟩

end HypergraphPlan

/-- A two-party plan has finite fields; a hypergraph plan resolves. -/
def EvaluationPlan.IsAdmitted {K : Type} [Scalar K] : EvaluationPlan K → Prop
  | .twoParty plan => plan.isFinite = true
  | .hypergraph plan => plan.IsSound

theorem BridgeSettings.isAdmitted_of_plans {K : Type} [Scalar K] {s : BridgeSettings K}
    {plans : List (EvaluationPlan K)} (found : s.plans = .ok plans) :
    ∀ plan ∈ plans, plan.IsAdmitted := by
  intro plan inside
  have sound := isSound_of_plans found plan inside
  obtain ⟨two, many, foundTwo, foundMany, rfl⟩ := plans_eq_ok_iff.mp found
  cases plan with
  | hypergraph plan => exact sound
  | twoParty plan =>
    obtain ⟨hyper, rfl, -⟩ := hypergraphPlans_eq_ok foundMany
    obtain rfl := twoPartyPlans_eq_ok foundTwo
    exact isFinite_of_twoPartyPlans foundTwo plan (by simpa using inside)

namespace Run

variable [HasProbabilities K] {options : RunOptions K} {g : Generator}

theorem allFinite_of_run_twoParty {plan : TwoPartyPlan K} (finite : plan.isFinite = true)
    {outcome : TwoPartyOutcome K} (ran : ((twoParty plan options).run g).1 = .ok outcome) :
    AllFinite outcome.numbers := by
  obtain ⟨c, evaluated⟩ := (Correlators.exists_evaluate_iff plan.terms).mpr
    (fits_twoParty plan options.depolarizing)
  have bounded := Correlators.isBelow_of_evaluate_ghz (TwoPartyPlan.isMeasurable_terms finite)
    evaluated
  have numbers := allFinite_measured bounded plan.terms.length options.shots g
  simp only [Measurement.numbers, allFinite_append, allFinite_cons] at numbers
  rw [(yields_twoParty evaluated fun e _ => Sampler.isValid e).eq_of_ok ran]
  simp only [TwoPartyPlan.isFinite, List.all_cons, List.all_nil, Bool.and_true,
    Bool.and_eq_true] at finite
  simp only [TwoPartyOutcome.numbers, twoPartyOutcome, allFinite_append, allFinite_cons]
  tauto

theorem allFinite_of_run_hypergraph {plan : HypergraphPlan K} (sound : plan.IsSound)
    {outcome : HypergraphOutcome K} (ran : ((hypergraph plan options).run g).1 = .ok outcome) :
    AllFinite outcome.numbers := by
  have fits := fits_hypergraph sound options.depolarizing
  obtain ⟨c, evaluated⟩ := (Correlators.exists_evaluate_iff _).mpr fits
  obtain ⟨directions, shown⟩ := sound.exists_primaryDirections
  have bounded := Correlators.isBelow_of_evaluate_ghz sound.isMeasurable_terms evaluated
  have numbers := allFinite_measured bounded plan.resolvedTerms.length options.shots g
  have axes := HypergraphPlan.allFinite_primaryDirectionsFrom sound.axes shown
  have target := sound.target
  have yields := yields_hypergraph sound.terms_eq evaluated (fun e _ => Sampler.isValid e) shown
  simp only [Measurement.numbers, allFinite_append, allFinite_cons] at numbers
  rw [yields.eq_of_ok ran]
  simp only [HypergraphOutcome.numbers, hypergraphOutcome, allFinite_append, allFinite_cons,
    allFinite_flatMap]
  tauto

/-! ## Correlator runs -/

/-- Entering the outcome of a plan keeps the options of a report, and the numbers in it finite. -/
theorem allFinite_of_run_enter {plan : EvaluationPlan K} (admitted : plan.IsAdmitted)
    {before after : SandboxReport K} (finite : AllFinite before.measured)
    (ran : ((enter options before plan).run g).1 = .ok after) :
    AllFinite after.measured ∧ after.shots = before.shots ∧
      after.depolarizing = before.depolarizing := by
  simp only [SandboxReport.measured, allFinite_append, allFinite_flatMap] at finite ⊢
  rcases plan with plan | plan
  · rcases exists_of_run_enter_twoParty ran with ⟨o, outcome, rfl⟩
    refine ⟨⟨?_, finite.2⟩, rfl, rfl⟩
    exact List.forall_mem_singleton.mpr (allFinite_of_run_twoParty admitted outcome)
  · rcases exists_of_run_enter_hypergraph ran with ⟨o, outcome, rfl⟩
    refine ⟨⟨finite.1, ?_⟩, rfl, rfl⟩
    exact List.forall_mem_singleton.mpr (allFinite_of_run_hypergraph admitted outcome)

/-- Whatever a correlator run reports is finite, apart from the noise that it repeats. -/
theorem allFinite_measured_of_run {settings : BridgeSettings K} {report : SandboxReport K}
    (ran : ((sandbox settings options).run g).1 = .ok report) :
    AllFinite report.measured ∧ report.shots = options.shots ∧
      report.depolarizing = options.depolarizing := by
  have empty : AllFinite (emptyReport options).measured := List.forall_mem_nil _
  refine invariant_of_run_sandbox (P := fun report => AllFinite report.measured ∧
    report.shots = options.shots ∧ report.depolarizing = options.depolarizing) ran
    ⟨empty, rfl, rfl⟩ fun plans found plan inside before after g kept entered => ?_
  rcases kept with ⟨finite, shots, noise⟩
  rcases allFinite_of_run_enter (BridgeSettings.isAdmitted_of_plans found plan inside) finite
    entered with ⟨finite', shots', noise'⟩
  exact ⟨finite', shots'.trans shots, noise'.trans noise⟩

end Run

end Nonlocal
