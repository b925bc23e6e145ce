import Nonlocal.Proofs.Binary64.Functions
import Nonlocal.Proofs.Run.Success

/-!
Where runs fail.

A correlator run enters one outcome after another into its report. Each entry yields a report that
keeps those before it (`exists_yields_enter`), so that a run over all plans ends with an outcome for
each of them (`exists_yields_sandbox`). Hence the settings or the seed decide whether a run fails,
before the generator is touched, if only the draws are counts (`errors_precede_sampling`).
-/

namespace Nonlocal

/-- Does the report hold an outcome for the plan? -/
def SandboxReport.covers {K : Type} (report : SandboxReport K) : EvaluationPlan K → Bool
  | .twoParty _ => report.twoQubit.isSome
  | .hypergraph _ => report.fiveD.isSome

/-- The report with the outcome of a two-party plan. -/
def SandboxReport.withTwoQubit {K : Type} (report : SandboxReport K) (o : TwoPartyOutcome K) :
    SandboxReport K :=
  { report with twoQubit := some o }

/-- The report with the outcome of a hypergraph plan. -/
def SandboxReport.withFiveD {K : Type} (report : SandboxReport K) (o : HypergraphOutcome K) :
    SandboxReport K :=
  { report with fiveD := some o }

namespace Run

variable {K : Type} [Numerics K]

/-- The report of a correlator run before the first plan. -/
def emptyReport (options : RunOptions K) : SandboxReport K where
  twoQubit := none
  fiveD := none
  shots := options.shots
  depolarizing := options.depolarizing

/-! ## Entries -/

section Entries

variable {options : RunOptions K} {report entered : SandboxReport K} {two : TwoPartyPlan K}
  {many : HypergraphPlan K} {o₂ : TwoPartyOutcome K} {o₅ : HypergraphOutcome K}
  {g g' : Generator}

theorem run_enter_twoParty (ran : (twoParty two options).run g = (.ok o₂, g')) :
    (enter options report (.twoParty two)).run g = (.ok (report.withTwoQubit o₂), g') :=
  run_bind_ok ran

theorem run_enter_hypergraph (ran : (hypergraph many options).run g = (.ok o₅, g')) :
    (enter options report (.hypergraph many)).run g = (.ok (report.withFiveD o₅), g') :=
  run_bind_ok ran

theorem exists_of_run_enter_twoParty
    (ran : ((enter options report (.twoParty two)).run g).1 = .ok entered) :
    ∃ o, ((twoParty two options).run g).1 = .ok o ∧ entered = report.withTwoQubit o := by
  rcases exists_of_run_bind ran with ⟨o, g', first, same⟩
  cases same
  exact ⟨o, congrArg Prod.fst first, rfl⟩

theorem exists_of_run_enter_hypergraph
    (ran : ((enter options report (.hypergraph many)).run g).1 = .ok entered) :
    ∃ o, ((hypergraph many options).run g).1 = .ok o ∧ entered = report.withFiveD o := by
  rcases exists_of_run_bind ran with ⟨o, g', first, same⟩
  cases same
  exact ⟨o, congrArg Prod.fst first, rfl⟩

end Entries

/-! ## Correlator runs -/

section Sandbox

variable (settings : BridgeSettings K) (options : RunOptions K) (g : Generator)

theorem run_sandbox_of_refused {e : Error K} (refused : settings.plans = .error e) :
    (sandbox settings options).run g = (.error e, g) := by
  rw [sandbox, refused]
  rfl

theorem run_sandbox_of_empty (empty : settings.plans = .ok []) :
    (sandbox settings options).run g = (.error (.malformed .noPlan), g) := by
  rw [sandbox, empty]
  rfl

theorem run_sandbox_of_plans {plan : EvaluationPlan K} {rest : List (EvaluationPlan K)}
    (found : settings.plans = .ok (plan :: rest)) :
    (sandbox settings options).run g =
      ((plan :: rest).foldlM (enter options) (emptyReport options)).run g := by
  rw [sandbox, found]
  rfl

variable {settings options g}

theorem exists_plan_of_run_sandbox {report : SandboxReport K}
    (ran : ((sandbox settings options).run g).1 = .ok report) :
    ∃ plan rest, settings.plans = .ok (plan :: rest) := by
  cases found : settings.plans with
  | error e =>
    rw [run_sandbox_of_refused settings options g found] at ran
    cases ran
  | ok plans =>
    cases plans with
    | nil =>
      rw [run_sandbox_of_empty settings options g found] at ran
      cases ran
    | cons plan rest => exact ⟨plan, rest, rfl⟩

/-- What entries keep of a report that they return, the entries of all plans keep. -/
theorem invariant_of_run_enterAll {P : SandboxReport K → Prop} {plans : List (EvaluationPlan K)}
    {start report : SandboxReport K}
    (ran : ((plans.foldlM (enter options) start).run g).1 = .ok report) (holds : P start)
    (step : ∀ plan ∈ plans, ∀ before after g, P before →
      ((enter options before plan).run g).1 = .ok after → P after) : P report := by
  induction plans generalizing start g with
  | nil =>
    cases ran
    exact holds
  | cons plan rest ih =>
    rcases List.forall_mem_cons.mp step with ⟨first, others⟩
    rw [List.foldlM_cons] at ran
    rcases exists_of_run_bind ran with ⟨entered, g', run, ranRest⟩
    exact ih ranRest (first _ _ g holds (congrArg Prod.fst run)) others

/-- What holds of the report before the first plan and is kept by every entry holds of the report of
the run. -/
theorem invariant_of_run_sandbox {P : SandboxReport K → Prop} {report : SandboxReport K}
    (ran : ((sandbox settings options).run g).1 = .ok report) (start : P (emptyReport options))
    (step : ∀ plans, settings.plans = .ok plans → ∀ plan ∈ plans, ∀ before after g, P before →
      ((enter options before plan).run g).1 = .ok after → P after) : P report := by
  rcases exists_plan_of_run_sandbox ran with ⟨plan, rest, found⟩
  rw [run_sandbox_of_plans settings options g found] at ran
  exact invariant_of_run_enterAll ran start (step _ found)

end Sandbox

section Success

variable [HasProbabilities K] (options : RunOptions K)

theorem exists_yields_enter {plan : EvaluationPlan K} (sound : plan.IsSound)
    (report : SandboxReport K) :
    ∃ v, (enter options report plan).Yields v ∧ ∀ g, (v g).1.covers plan = true ∧
      ∀ other, report.covers other = true → (v g).1.covers other = true := by
  cases plan with
  | twoParty plan =>
    rcases exists_yields_twoParty plan options with ⟨c, n, yields⟩
    refine ⟨_, yields.map report.withTwoQubit, fun g => ⟨rfl, ?_⟩⟩
    intro other held
    cases other with
    | twoParty _ => rfl
    | hypergraph _ => exact held
  | hypergraph plan =>
    rcases exists_yields_hypergraph sound options with ⟨c, n, directions, yields⟩
    refine ⟨_, yields.map report.withFiveD, fun g => ⟨rfl, ?_⟩⟩
    intro other held
    cases other with
    | twoParty _ => exact held
    | hypergraph _ => rfl

theorem exists_yields_enterAll {plans : List (EvaluationPlan K)}
    (sound : ∀ plan ∈ plans, plan.IsSound) (report : SandboxReport K) :
    ∃ v, (plans.foldlM (enter options) report).Yields v ∧
      ∀ g, (∀ plan ∈ plans, (v g).1.covers plan = true) ∧
        ∀ other, report.covers other = true → (v g).1.covers other = true := by
  -- The outcome of the first plan has to outlast the entries of the rest: every entry keeps what
  -- the report covers.
  induction plans generalizing report with
  | nil => exact ⟨_, .pure report, fun g => ⟨List.forall_mem_nil _, fun _ held => held⟩⟩
  | cons plan rest ih =>
    rcases List.forall_mem_cons.mp sound with ⟨first, others⟩
    rcases exists_yields_enter options first report with ⟨v, entered, kept⟩
    choose w yields covered using ih others
    rw [List.foldlM_cons]
    refine ⟨_, entered.bind yields, fun g => ⟨?_, fun other held => ?_⟩⟩
    · rcases covered (v g).1 (v g).2 with ⟨coveredRest, keptRest⟩
      exact List.forall_mem_cons.mpr ⟨keptRest plan (kept g).1, coveredRest⟩
    · exact (covered (v g).1 (v g).2).2 other ((kept g).2 other held)

theorem exists_yields_sandbox {settings : BridgeSettings K} {plans : List (EvaluationPlan K)}
    (found : settings.plans = .ok plans) (some_plan : plans ≠ []) :
    ∃ v, (sandbox settings options).Yields v ∧
      ∀ g, ∀ plan ∈ plans, (v g).1.covers plan = true := by
  have sound := BridgeSettings.isSound_of_plans found
  rcases exists_yields_enterAll options sound (emptyReport options) with ⟨v, yields, covered⟩
  cases plans with
  | nil => exact absurd rfl some_plan
  | cons plan rest =>
    refine ⟨v, fun g => ?_, fun g => (covered g).1⟩
    rw [Panics, run_sandbox_of_plans settings options g found]
    exact yields g

variable [HasCounts K]

theorem exists_run_sandbox {settings : BridgeSettings K} {plans : List (EvaluationPlan K)}
    (found : settings.plans = .ok plans) (some_plan : plans ≠ []) (g : Generator) :
    ∃ report g', (sandbox settings options).run g = (.ok report, g') ∧
      ∀ plan ∈ plans, report.covers plan = true := by
  rcases exists_yields_sandbox options found some_plan with ⟨v, yields, covered⟩
  exact ⟨_, _, yields.run g, covered g⟩

theorem run_sandbox_error_iff {settings : BridgeSettings K} {g g' : Generator} {e : Error K} :
    (sandbox settings options).run g = (.error e, g') ↔
      g' = g ∧ (settings.plans = .error e ∨ settings.plans = .ok [] ∧ e = .malformed .noPlan) := by
  cases found : settings.plans with
  | error refusal =>
    rw [run_sandbox_of_refused settings options g found]
    grind
  | ok plans =>
    cases plans with
    | nil =>
      rw [run_sandbox_of_empty settings options g found]
      grind
    | cons plan rest =>
      obtain ⟨report, g₁, run, -⟩ := exists_run_sandbox options found (List.cons_ne_nil _ _) g
      rw [run]
      grind

/-! ## Chaos runs -/

theorem run_ezph_error_iff {config : EngineConfig K} {source : ChaosSource K}
    {settings : Option (BridgeSettings K)} {g g' : Generator} {e : Error K} :
    (ezph config source settings options).run g = (.error e, g') ↔
      g' = g ∧
        Seed.fraction ((settings.map BridgeSettings.seed).getD fallbackSeed) = .error e := by
  cases found : Seed.fraction (K := K) ((settings.map BridgeSettings.seed).getD fallbackSeed) with
  | error refusal =>
    rw [ezph, run_simulate_of_refused found]
    grind
  | ok fraction =>
    obtain ⟨report, g₁, run⟩ := exists_run_ezph found config source options g
    rw [run]
    grind

/-- Errors come before the draws, if these are counts. A correlator run fails exactly if its
settings are refused or ask for nothing, and a chaos run exactly if its seed is refused; both then
end with that error and leave the generator as it was. Every other run has a result, and the report
of a correlator run holds an outcome for each of its plans. -/
theorem errors_precede_sampling (g : Generator) :
    (∀ settings : BridgeSettings K,
      (∀ e g', (sandbox settings options).run g = (.error e, g') ↔
        g' = g ∧
          (settings.plans = .error e ∨ settings.plans = .ok [] ∧ e = .malformed .noPlan)) ∧
      ∀ plans, settings.plans = .ok plans → plans ≠ [] →
        ∃ report g', (sandbox settings options).run g = (.ok report, g') ∧
          ∀ plan ∈ plans, report.covers plan = true) ∧
    ∀ (settings : Option (BridgeSettings K)) (config : EngineConfig K) (source : ChaosSource K),
      let seed := (settings.map BridgeSettings.seed).getD fallbackSeed
      (∀ (e : Error K) g', (ezph config source settings options).run g = (.error e, g') ↔
        g' = g ∧ Seed.fraction seed = .error e) ∧
      ∀ fraction : K, Seed.fraction seed = .ok fraction →
        ∃ report g', (ezph config source settings options).run g = (.ok report, g') := by
  refine ⟨fun settings => ⟨fun e g' => ?_, fun plans found some_plan => ?_⟩,
    fun settings config source => ⟨fun e g' => ?_, fun fraction found => ?_⟩⟩
  · exact run_sandbox_error_iff options
  · exact exists_run_sandbox options found some_plan g
  · exact run_ezph_error_iff options
  · exact exists_run_ezph found config source options g

/-- In binary64 an undefined bound and a seed without digits are refused before anything is drawn,
and the same settings with a defined bound have an outcome. -/
theorem errors_precede_sampling_binary64 :
    let _ : Numerics Float := Binary64.counting
    let options : RunOptions Float := { shots := 4096, depolarizing := 3 }
    let g := Generator.ofSeed Sampler.correlatorSeed
    let plan (bound : Float) : TwoPartyPlan Float := ⟨⟨0, 1⟩, ⟨2, 3⟩, bound, 3⟩
    let settings (bound : Float) : BridgeSettings Float :=
      { epoch := 0, seed := "seed", receipt := none, twoQubit := some (plan bound), fiveD := none
        hyperedges := [] }
    (sandbox (settings (0 / 0)) options).run g = (.error (.malformed .twoPartyNotFinite), g) ∧
    (∃ report g', (sandbox (settings 2) options).run g = (.ok report, g') ∧
      report.twoQubit.isSome = true) ∧
    (ezph .standard (ChaosVector.sample .standard) (some (settings 2)) options).run g =
      (.error (.malformed (.seedNotHexadecimal "seed")), g) := by
  intro counting options g plan settings
  have counts : HasCounts Float := Binary64.hasCounts_counting
  have probabilities : HasProbabilities Float := Binary64.Functions.counting.hasProbabilities
  obtain ⟨sandboxes, chaos⟩ := errors_precede_sampling options g
  have undefined : (plan (0 / 0)).isFinite = false := by decide +kernel
  have defined : (plan 2).isFinite = true := by decide +kernel
  have refused := BridgeSettings.plans_of_not_isFinite (s := settings (0 / 0)) rfl undefined
  have two := BridgeSettings.twoPartyPlans_of_isFinite (s := settings 2) rfl defined
  have accepted := BridgeSettings.plans_eq_ok_iff.mpr ⟨_, [], two, rfl, rfl⟩
  have unread : (Seed.fraction "seed" : Except (Error Float) Float) =
      .error (.malformed (.seedNotHexadecimal "seed")) := rfl
  refine ⟨?_, ?_, ?_⟩
  · exact ((sandboxes _).1 _ _).mpr ⟨rfl, .inl refused⟩
  · obtain ⟨report, g', run, covered⟩ := (sandboxes _).2 _ accepted (List.cons_ne_nil _ _)
    exact ⟨report, g', run, covered _ List.mem_cons_self⟩
  · exact ((chaos _ _ _).1 _ _).mpr ⟨rfl, unread⟩

end Success

end Run

end Nonlocal
