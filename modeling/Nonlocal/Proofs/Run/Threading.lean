import Nonlocal.Proofs.Run.Failure
import Nonlocal.Proofs.Run.Hypergraph

/-!
How the generator passes through a correlator run.

The two-party plan draws first, and the hypergraph plan draws from the generator that it leaves. So
the two-party outcome does not depend on the hypergraph sections at all, and the hypergraph outcome
depends on the section of the two-party plan in its estimates only (`sandbox_threads_generator`).
-/

namespace Nonlocal.Run

variable {K : Type} [Numerics K] {options : RunOptions K} {settings : BridgeSettings K}
  {two : TwoPartyPlan K} {many : HypergraphPlan K} {g g₁ g₂ : Generator}

section Outcomes

variable {o₂ : TwoPartyOutcome K} {o₅ : HypergraphOutcome K}

theorem run_sandbox_twoParty (found : settings.plans = .ok [.twoParty two])
    (runTwo : (twoParty two options).run g = (.ok o₂, g₁)) :
    (sandbox settings options).run g =
      (.ok ((emptyReport options).withTwoQubit o₂), g₁) := by
  rw [run_sandbox_of_plans settings options g found, List.foldlM_cons,
    run_bind_ok (run_enter_twoParty runTwo)]
  rfl

theorem run_sandbox_hypergraph (found : settings.plans = .ok [.hypergraph many])
    (runMany : (hypergraph many options).run g = (.ok o₅, g₁)) :
    (sandbox settings options).run g =
      (.ok ((emptyReport options).withFiveD o₅), g₁) := by
  rw [run_sandbox_of_plans settings options g found, List.foldlM_cons,
    run_bind_ok (run_enter_hypergraph runMany)]
  rfl

theorem run_sandbox_pair (found : settings.plans = .ok [.twoParty two, .hypergraph many])
    (runTwo : (twoParty two options).run g = (.ok o₂, g₁))
    (runMany : (hypergraph many options).run g₁ = (.ok o₅, g₂)) :
    (sandbox settings options).run g =
      (.ok (((emptyReport options).withTwoQubit o₂).withFiveD o₅), g₂) := by
  rw [run_sandbox_of_plans settings options g found, List.foldlM_cons,
    run_bind_ok (run_enter_twoParty runTwo), List.foldlM_cons,
    run_bind_ok (run_enter_hypergraph runMany)]
  rfl

end Outcomes

/-- One generator passes through both plans, the two-party plan first. Without the sections of the
hypergraph plan the two-party outcome is the same, estimates included; without the section of the
two-party plan the hypergraph outcome is the same for every generator, estimates excepted. -/
theorem sandbox_threads_generator [HasProbabilities K] [HasCounts K]
    {plans : List (EvaluationPlan K)} (found : settings.plans = .ok plans)
    (first : .twoParty two ∈ plans) (second : .hypergraph many ∈ plans) (options : RunOptions K)
    (g₀ : Generator) :
    ∃ o₂ g₁ o₅ g₂,
      (twoParty two options).run g₀ = (.ok o₂, g₁) ∧
      (hypergraph many options).run g₁ = (.ok o₅, g₂) ∧
      (sandbox settings options).run g₀ =
        (.ok { emptyReport options with twoQubit := some o₂, fiveD := some o₅ }, g₂) ∧
      (sandbox settings.withoutHypergraph options).run g₀ =
        (.ok { emptyReport options with twoQubit := some o₂ }, g₁) ∧
      ∀ g, ∃ o g', (hypergraph many options).run g = (.ok o, g') ∧
        (sandbox settings.withoutTwoParty options).run g =
          (.ok { emptyReport options with fiveD := some o }, g') ∧
        o = { o₅ with sampled := o.sampled, sampledTerms := o.sampledTerms } := by
  obtain ⟨foundTwo, foundMany, rfl⟩ := BridgeSettings.eq_pair_of_plans found first second
  have sound : many.IsSound := BridgeSettings.isSound_of_plans found _ second
  obtain ⟨c, n, yieldsTwo⟩ := exists_yields_twoParty two options
  obtain ⟨d, m, directions, yieldsMany⟩ := exists_yields_hypergraph sound options
  have runTwo := yieldsTwo.run
  have runMany := yieldsMany.run
  refine ⟨_, _, _, _, runTwo g₀, runMany _, ?_, ?_, fun g => ⟨_, _, runMany g, ?_, rfl⟩⟩
  · exact run_sandbox_pair found (runTwo g₀) (runMany _)
  · exact run_sandbox_twoParty (BridgeSettings.plans_withoutHypergraph foundTwo) (runTwo g₀)
  · exact run_sandbox_hypergraph (BridgeSettings.plans_withoutTwoParty foundMany) (runMany g)

/-- Settings with both plans: the run without the hypergraph sections shows the same two-party
outcome. -/
theorem sandbox_threads_generator_pairPlan :
    let _ : Kernels := .standard
    let plan : TwoPartyPlan Exact := {
      alice := ⟨.finite 0, .finite 1⟩
      bob := ⟨.finite 2, .finite 3⟩
      classicalLimit := .finite 2
      tsirelsonBound := .finite 3 }
    let settings : BridgeSettings Exact := {
      epoch := 0
      seed := "5d"
      receipt := none
      twoQubit := some plan
      fiveD := some ⟨pairPlan.axes, pairPlan.targetViolation⟩
      hyperedges := pairPlan.hyperedges }
    let options : RunOptions Exact := { shots := 4096, depolarizing := .finite 3 }
    let g := Generator.ofSeed Sampler.correlatorSeed
    settings.plans = .ok [.twoParty plan, .hypergraph pairPlan] ∧
      ∃ report g', (sandbox settings options).run g = (.ok report, g') ∧
        report.twoQubit.isSome = true ∧ report.fiveD.isSome = true ∧
        ∃ g₁, (sandbox settings.withoutHypergraph options).run g =
          (.ok { emptyReport options with twoQubit := report.twoQubit }, g₁) := by
  intro standard plan settings options g
  have foundTwo : settings.twoPartyPlans = .ok [.twoParty plan] :=
    BridgeSettings.twoPartyPlans_of_isFinite rfl rfl
  have made : HypergraphPlan.of pairPlan.axes pairPlan.hyperedges pairPlan.targetViolation =
      .ok pairPlan := HypergraphPlan.of_eq_ok_iff.mpr ⟨rfl, pairPlan_isSound⟩
  have foundMany : settings.hypergraphPlans = .ok [.hypergraph pairPlan] := by
    change (HypergraphPlan.of pairPlan.axes pairPlan.hyperedges pairPlan.targetViolation >>= _) = _
    rw [made]
    rfl
  have found := BridgeSettings.plans_eq_ok_iff.mpr ⟨_, _, foundTwo, foundMany, rfl⟩
  obtain ⟨o₂, g₁, o₅, g₂, -, -, both, alone, -⟩ := sandbox_threads_generator found
    List.mem_cons_self (List.mem_cons_of_mem _ List.mem_cons_self) options g
  exact ⟨found, _, g₂, both, rfl, rfl, g₁, alone⟩

end Nonlocal.Run
