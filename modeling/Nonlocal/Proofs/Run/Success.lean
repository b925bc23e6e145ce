import Nonlocal.Proofs.Register.Fit
import Nonlocal.Proofs.Run.Measure
import Nonlocal.Proofs.Settings.Plans
import Nonlocal.Proofs.Settings.Resolution

/-!
Which runs succeed.

The terms of a two-party plan, of a sound hypergraph plan and of a chaos run fit their registers, so
that nothing in these runs fails once the plan or the seed has been accepted. What a run reports
apart from its estimates does not depend on the generator.
-/

namespace Nonlocal.Run

open DensityMatrix

variable {K : Type} [Numerics K]

theorem fits_twoParty (plan : TwoPartyPlan K) (p : K) :
    ∀ t ∈ plan.terms, t.qubits = (bell.depolarize p).qubits := by
  intro t member
  rw [qubits_depolarize]
  simp only [TwoPartyPlan.terms, chshTerms, List.mem_cons, List.not_mem_nil, or_false] at member
  rcases member with rfl | rfl | rfl | rfl <;> rfl

theorem fits_hypergraph {plan : HypergraphPlan K} (sound : plan.IsSound) (p : K) :
    ∀ t ∈ plan.resolvedTerms, t.qubits = ((ghz plan.dims).depolarize p).qubits := by
  intro t member
  obtain ⟨edge, -, rfl⟩ := List.mem_map.mp member
  rw [qubits_depolarize, qubits_ghz sound.nonempty sound.bounded]
  exact HypergraphPlan.qubits_resolvedTerm plan.axes edge

theorem fits_ezph (options : RunOptions K) (chaos : ChaosVector K) :
    ∀ t ∈ (pauliTerms : List (Term K)), t.qubits = (disturbedRegister options chaos).qubits := by
  intro t member
  rw [disturbedRegister, qubits_perturb, qubits_depolarize]
  simp only [pauliTerms, List.mem_map] at member
  obtain ⟨s, -, rfl⟩ := member
  rfl

/-! ## Chaos runs that return -/

section Chaos

variable {settings : Option (BridgeSettings K)} {config : EngineConfig K} {engine : ChaosEngine K}
  {options : RunOptions K} {g : Generator}

theorem run_simulate_of_refused {e : Error K}
    (refused : Seed.fraction ((settings.map BridgeSettings.seed).getD fallbackSeed) =
      (.error e : Except (Error K) K))
    (config : EngineConfig K) (engine : ChaosEngine K) (options : RunOptions K) (g : Generator) :
    (simulate config engine settings options).run g = (.error e, g) := by
  rw [simulate, refused]
  rfl

/-- A run with a report has read its seed, and its engine has moved. -/
theorem exists_chaos_of_run_simulate {report : EzphReport K}
    (ran : ((simulate config engine settings options).run g).1 = .ok report) :
    ∃ fraction chaos,
      Seed.fraction ((settings.map BridgeSettings.seed).getD fallbackSeed) =
        (.ok fraction : Except (Error K) K) ∧ engine fraction = .ok chaos := by
  rcases found : (Seed.fraction ((settings.map BridgeSettings.seed).getD fallbackSeed) :
      Except (Error K) K) with e | fraction
  · rw [run_simulate_of_refused found] at ran
    cases ran
  · rcases moved : engine fraction with cause | chaos
    · rw [run_simulate_of_panic found moved] at ran
      cases ran
    · exact ⟨fraction, chaos, rfl, moved⟩

theorem exists_fraction_of_run_ezph {source : ChaosSource K} {report : EzphReport K}
    (ran : ((ezph config source settings options).run g).1 = .ok report) :
    ∃ fraction : K,
      Seed.fraction ((settings.map BridgeSettings.seed).getD fallbackSeed) = .ok fraction := by
  rcases exists_chaos_of_run_simulate ran with ⟨fraction, -, found, -⟩
  exact ⟨fraction, found⟩

end Chaos

/-! ## Runs that are accepted -/

variable [HasProbabilities K]

theorem exists_yields_twoParty (plan : TwoPartyPlan K) (options : RunOptions K) :
    ∃ c n, (twoParty plan options).Yields fun g =>
      (twoPartyOutcome plan (measured c n options.shots g).1,
        (measured c n options.shots g).2) := by
  have fits := fits_twoParty plan options.depolarizing
  rcases (Correlators.exists_evaluate_iff plan.terms).mpr fits with ⟨c, evaluated⟩
  exact ⟨c, plan.terms.length, yields_twoParty evaluated fun e _ => Sampler.isValid e⟩

theorem exists_yields_hypergraph {plan : HypergraphPlan K} (sound : plan.IsSound)
    (options : RunOptions K) :
    ∃ c n directions, (hypergraph plan options).Yields fun g =>
      (hypergraphOutcome plan directions (measured c n options.shots g).1,
        (measured c n options.shots g).2) := by
  have fits := fits_hypergraph sound options.depolarizing
  rcases (Correlators.exists_evaluate_iff _).mpr fits with ⟨c, evaluated⟩
  rcases sound.exists_primaryDirections with ⟨directions, shown⟩
  exact ⟨c, _, directions,
    yields_hypergraph sound.terms_eq evaluated (fun e _ => Sampler.isValid e) shown⟩

section Chaos

variable {settings : Option (BridgeSettings K)} {fraction : K}

/-- Chaos runs with the same seed and the same noise report on the same correlators. -/
theorem exists_yields_simulate
    (found : Seed.fraction ((settings.map BridgeSettings.seed).getD fallbackSeed) = .ok fraction)
    {engine : ChaosEngine K} {chaos : ChaosVector K} (moved : engine fraction = .ok chaos)
    (options : RunOptions K) :
    ∃ c, ∀ config shots,
      let m := measured c (pauliTerms : List (Term K)).length shots
      (simulate config engine settings { options with shots }).Yields fun g =>
        (ezphReport config settings options fraction chaos (m g).1, (m g).2) := by
  have fits := fits_ezph options chaos
  rcases (Correlators.exists_evaluate_iff pauliTerms).mpr fits with ⟨c, evaluated⟩
  have valid : ∀ e ∈ c.values, Sampler.IsValid e := fun e _ => Sampler.isValid e
  refine ⟨c, fun config shots => ?_⟩
  exact @yields_simulate K _ settings fraction { options with shots } found engine chaos c moved
    evaluated valid config

variable [HasCounts K]

theorem exists_runs_ezph_of_fraction
    (found : Seed.fraction ((settings.map BridgeSettings.seed).getD fallbackSeed) = .ok fraction)
    (source : ChaosSource K) (options : RunOptions K) :
    ∃ c, ∀ config shots g,
      let m := measured c (pauliTerms : List (Term K)).length shots g
      (ezph config source settings { options with shots }).run g =
        (.ok (ezphReport config settings options fraction (source fraction) m.1), m.2) := by
  let engine : ChaosEngine K := fun f => .ok (source f)
  have moved : engine fraction = .ok (source fraction) := rfl
  rcases exists_yields_simulate found moved options with ⟨c, yields⟩
  exact ⟨c, fun config shots => (yields config shots).run⟩

theorem exists_run_ezph
    (found : Seed.fraction ((settings.map BridgeSettings.seed).getD fallbackSeed) = .ok fraction)
    (config : EngineConfig K) (source : ChaosSource K) (options : RunOptions K) (g : Generator) :
    ∃ report g', (ezph config source settings options).run g = (.ok report, g') := by
  rcases exists_runs_ezph_of_fraction found source options with ⟨c, run⟩
  exact ⟨_, _, run config options.shots g⟩

end Chaos

/-- A report speaks about the privacy of the disturbed register. -/
theorem privacy_of_run_ezph {config : EngineConfig K} {source : ChaosSource K}
    {settings : Option (BridgeSettings K)} {options : RunOptions K} {g g' : Generator}
    {report : EzphReport K}
    (returned : (ezph config source settings options).run g = (.ok report, g')) :
    ∃ chaos digest, report.privacy =
      Privacy.analyze config.privacy (disturbedRegister options chaos) digest := by
  have ran := congrArg Prod.fst returned
  rcases exists_fraction_of_run_ezph ran with ⟨fraction, found⟩
  let engine : ChaosEngine K := fun f => .ok (source f)
  have moved : engine fraction = .ok (source fraction) := rfl
  rcases exists_yields_simulate found moved options with ⟨c, yields⟩
  rw [(yields config options.shots).eq_of_ok ran]
  exact ⟨_, _, rfl⟩

end Nonlocal.Run
