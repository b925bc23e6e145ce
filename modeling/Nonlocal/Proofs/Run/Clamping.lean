import Nonlocal.Linear.Binary64
import Nonlocal.Proofs.Binary64.Equality
import Nonlocal.Proofs.Run.Success

/-!
The clamp policy does not show in results.

A run uses its noise only clamped, and its shots only as the share of each term. Under options that
clamp alike every step of a run is the same computation, up to the options that the report repeats
(`enterAll_withOptions`), so whole runs end with the same error or the same outcomes
(`clamp_invisible`).
-/

namespace Nonlocal

/-- The number of terms that a plan is evaluated on. -/
def EvaluationPlan.termCount {K : Type} : EvaluationPlan K → Nat
  | .twoParty _ => 4
  | .hypergraph plan => plan.hyperedges.length

/-- The report of the same outcomes under other options. -/
def SandboxReport.withOptions {K : Type} (options : RunOptions K) (report : SandboxReport K) :
    SandboxReport K :=
  { report with shots := options.shots, depolarizing := options.depolarizing }

theorem DensityMatrix.depolarize_congr {K : Type} [Scalar K] [HasEquality K] {p p' : K}
    (alike : Scalar.eq (Clamp.depolarizing p') (Clamp.depolarizing p) = true)
    (ρ : DensityMatrix K) : ρ.depolarize p' = ρ.depolarize p := by
  unfold depolarize
  rcases HasEquality.eq_or_zero alike with same | ⟨zero', zero⟩
  · rw [same]
  · rw [if_pos zero', if_pos zero]

namespace Run

variable {K : Type} [Numerics K]

omit [Numerics K] in
theorem run_map {α β : Type} (f : α → β) (x : Run K α) (g : Generator) :
    (f <$> x).run g = ((x.run g).1.map f, (x.run g).2) := by
  rw [ExceptT.run_map]
  rfl

theorem measure_congr {terms : List (Term K)} {shots shots' : Int64}
    (share : Clamp.shotsPerTerm shots' terms.length = Clamp.shotsPerTerm shots terms.length)
    (ρ : DensityMatrix K) : measure ρ terms shots' = measure ρ terms shots := by
  unfold measure
  rw [share]

section Alike

variable [HasEquality K] {options options' : RunOptions K}
  (alike : Scalar.eq (Clamp.depolarizing options'.depolarizing)
    (Clamp.depolarizing options.depolarizing) = true)

include alike

theorem twoParty_congr (plan : TwoPartyPlan K)
    (share : Clamp.shotsPerTerm options'.shots 4 = Clamp.shotsPerTerm options.shots 4) :
    twoParty plan options' = twoParty plan options := by
  have terms : plan.terms.length = 4 := rfl
  unfold twoParty
  rw [DensityMatrix.depolarize_congr alike, measure_congr (terms ▸ share)]

theorem hypergraph_congr {plan : HypergraphPlan K} (sound : plan.IsSound)
    (share : Clamp.shotsPerTerm options'.shots plan.hyperedges.length =
      Clamp.shotsPerTerm options.shots plan.hyperedges.length) :
    hypergraph plan options' = hypergraph plan options := by
  have terms := plan.length_resolvedTerms
  unfold hypergraph
  rw [DensityMatrix.depolarize_congr alike, sound.terms_eq]
  change (measure _ _ options'.shots >>= _) = (measure _ _ options.shots >>= _)
  rw [measure_congr (terms ▸ share)]

theorem enter_withOptions {plan : EvaluationPlan K} (sound : plan.IsSound)
    (share : Clamp.shotsPerTerm options'.shots plan.termCount =
      Clamp.shotsPerTerm options.shots plan.termCount) (report : SandboxReport K) :
    enter options' (report.withOptions options') plan =
      SandboxReport.withOptions options' <$> enter options report plan := by
  cases plan with
  | twoParty plan =>
    simp only [enter, twoParty_congr alike plan share, map_bind]
    rfl
  | hypergraph plan =>
    simp only [enter, hypergraph_congr alike sound share, map_bind]
    rfl

theorem enterAll_withOptions {plans : List (EvaluationPlan K)}
    (sound : ∀ plan ∈ plans, plan.IsSound)
    (share : ∀ plan ∈ plans, Clamp.shotsPerTerm options'.shots plan.termCount =
      Clamp.shotsPerTerm options.shots plan.termCount) (report : SandboxReport K) :
    plans.foldlM (enter options') (report.withOptions options') =
      SandboxReport.withOptions options' <$> plans.foldlM (enter options) report := by
  induction plans generalizing report with
  | nil => rfl
  | cons plan rest ih =>
    obtain ⟨first, others⟩ := List.forall_mem_cons.mp sound
    obtain ⟨shareFirst, shareRest⟩ := List.forall_mem_cons.mp share
    rw [List.foldlM_cons, List.foldlM_cons, enter_withOptions alike first shareFirst,
      bind_map_left, map_bind]
    exact bind_congr fun entered => ih others shareRest entered

theorem sandbox_withOptions {settings : BridgeSettings K}
    (share : ∀ plans, settings.plans = .ok plans → ∀ plan ∈ plans,
      Clamp.shotsPerTerm options'.shots plan.termCount =
        Clamp.shotsPerTerm options.shots plan.termCount) :
    sandbox settings options' =
      SandboxReport.withOptions options' <$> sandbox settings options := by
  unfold sandbox
  cases found : settings.plans with
  | error e => rfl
  | ok plans =>
    have entered := enterAll_withOptions alike (BridgeSettings.isSound_of_plans found)
      (share plans found) { twoQubit := none, fiveD := none, shots := options.shots
                            depolarizing := options.depolarizing }
    cases plans with
    | nil => rfl
    | cons plan rest => exact entered

theorem ezph_congr_options
    (share : Clamp.shotsPerTerm options'.shots 3 = Clamp.shotsPerTerm options.shots 3)
    (config : EngineConfig K) (source : ChaosSource K) (settings : Option (BridgeSettings K)) :
    ezph config source settings options' = ezph config source settings options := by
  have terms : (pauliTerms : List (Term K)).length = 3 := rfl
  have register : disturbedRegister options' = disturbedRegister options := by
    unfold disturbedRegister
    rw [DensityMatrix.depolarize_congr alike]
  unfold ezph simulate
  simp only [register, measure_congr (terms ▸ share)]

end Alike

/-- Options whose noise clamps to the same number and whose shots give every term the same share give
the same run: the same error, or the same report up to the options that it repeats, and the same
generator. Chaos runs do not even repeat the options. -/
theorem clamp_invisible [HasEquality K] {options options' : RunOptions K}
    (alike : Scalar.eq (Clamp.depolarizing options'.depolarizing)
      (Clamp.depolarizing options.depolarizing) = true) (g : Generator) :
    (∀ settings : BridgeSettings K,
      (∀ plans, settings.plans = .ok plans → ∀ plan ∈ plans,
        Clamp.shotsPerTerm options'.shots plan.termCount =
          Clamp.shotsPerTerm options.shots plan.termCount) →
      (sandbox settings options').run g =
        (((sandbox settings options).run g).1.map fun report =>
            { report with shots := options'.shots, depolarizing := options'.depolarizing },
          ((sandbox settings options).run g).2)) ∧
    (Clamp.shotsPerTerm options'.shots 3 = Clamp.shotsPerTerm options.shots 3 →
      ∀ (config : EngineConfig K) (source : ChaosSource K) (settings : Option (BridgeSettings K)),
        (ezph config source settings options').run g =
          (ezph config source settings options).run g) := by
  constructor
  · intro settings share
    rw [sandbox_withOptions alike share, run_map]
    rfl
  · intro share config source settings
    rw [ezph_congr_options alike share]

/-- In binary64 noise that is undefined counts as noise below every bound, and a negative budget as
one that is smaller than the number of terms. -/
theorem clamp_invisible_binary64 :
    let undefined : RunOptions Float := { shots := -5, depolarizing := 0 / 0 }
    let below : RunOptions Float := { shots := 3, depolarizing := -1 / 0 }
    let plan : TwoPartyPlan Float := ⟨⟨0, 1⟩, ⟨2, 3⟩, 2, 3⟩
    let settings : BridgeSettings Float :=
      { epoch := 0, seed := "5d", receipt := none, twoQubit := some plan, fiveD := none
        hyperedges := [] }
    let g := Generator.ofSeed Sampler.correlatorSeed
    settings.plans = .ok [.twoParty plan] ∧
    (sandbox settings below).run g =
      (((sandbox settings undefined).run g).1.map fun report =>
          { report with shots := below.shots, depolarizing := below.depolarizing },
        ((sandbox settings undefined).run g).2) ∧
    (ezph .standard (ChaosVector.sample .standard) (some settings) below).run g =
      (ezph .standard (ChaosVector.sample .standard) (some settings) undefined).run g := by
  intro undefined below plan settings g
  have alike : Scalar.eq (Clamp.depolarizing below.depolarizing)
      (Clamp.depolarizing undefined.depolarizing) = true := by decide +kernel
  have finite : plan.isFinite = true := by decide +kernel
  have two := BridgeSettings.twoPartyPlans_of_isFinite (s := settings) rfl finite
  have found := BridgeSettings.plans_eq_ok_iff.mpr ⟨_, [], two, rfl, rfl⟩
  obtain ⟨sandboxes, chaos⟩ := clamp_invisible alike g
  refine ⟨found, sandboxes settings ?_, chaos (by decide) _ _ _⟩
  intro plans found' plan' member
  cases found.symm.trans found'
  cases List.mem_singleton.mp member
  decide

end Run

end Nonlocal
