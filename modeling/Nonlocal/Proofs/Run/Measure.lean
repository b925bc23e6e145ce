import Nonlocal.Proofs.Run.Sampling
import Nonlocal.Run.Ezph
import Nonlocal.Run.Sandbox

/-!
What the runs do once their terms have been evaluated: they draw the estimates and put the outcome
together. Nothing in it fails as long as the estimates can be drawn. A chaos run whose engine ends
the program ends before anything is drawn.
-/

namespace Nonlocal.Run

open Sampler (IsValid)

variable {K : Type} [Numerics K]

/-- The measurement of correlators that have been evaluated, from the estimates and their sum. -/
def Measurement.ofDrawn (c : Correlators K) (shotsPerTerm : UInt64) (drawn : List K × K) :
    Measurement K where
  correlators := c
  shotsPerTerm := shotsPerTerm
  estimates := drawn.1
  sampled := drawn.2
  confidence := jointHalfWidth c.values shotsPerTerm

/-- The measurement of correlators that have been evaluated, and the generator that it leaves. -/
def measured (c : Correlators K) (terms : Nat) (shots : Int64) (g : Generator) :
    Measurement K × Generator :=
  let shotsPerTerm := Clamp.shotsPerTerm shots terms
  let drawn := Sampler.correlatorEstimates c shotsPerTerm g
  (.ofDrawn c shotsPerTerm (drawn.1, Correlators.signedSum c.signs drawn.1), drawn.2)

theorem yields_measure {ρ : DensityMatrix K} {terms : List (Term K)} {c : Correlators K}
    (evaluated : Correlators.evaluate ρ terms = .ok c) (valid : ∀ e ∈ c.values, IsValid e)
    (shots : Int64) : (measure ρ terms shots).Yields (measured c terms.length shots) :=
  have drawn := Sampler.yields_sampleCorrelators valid (Clamp.shotsPerTerm shots terms.length)
  .lift evaluated (drawn.map (Measurement.ofDrawn c (Clamp.shotsPerTerm shots terms.length)))

/-- The outcome of a two-party plan whose terms have been measured. -/
def twoPartyOutcome (plan : TwoPartyPlan K) (m : Measurement K) : TwoPartyOutcome K where
  exact := m.correlators.exact
  sampled := m.sampled
  classicalLimit := plan.classicalLimit
  tsirelsonBound := plan.tsirelsonBound
  shotsPerTerm := m.shotsPerTerm
  correlators := m.correlators.values
  sampledTerms := m.estimates
  confidence := m.confidence

theorem yields_twoParty {plan : TwoPartyPlan K} {options : RunOptions K} {c : Correlators K}
    (evaluated : Correlators.evaluate (DensityMatrix.bell.depolarize options.depolarizing)
      plan.terms = .ok c) (valid : ∀ e ∈ c.values, IsValid e) :
    let m := measured c plan.terms.length options.shots
    (twoParty plan options).Yields fun g => (twoPartyOutcome plan (m g).1, (m g).2) :=
  (yields_measure evaluated valid options.shots).map (twoPartyOutcome plan)

/-- The outcome of a hypergraph plan whose terms have been measured. -/
def hypergraphOutcome (plan : HypergraphPlan K) (directions : List (Vec3 K)) (m : Measurement K) :
    HypergraphOutcome K where
  exact := m.correlators.exact
  sampled := m.sampled
  target := plan.targetViolation
  dims := UInt64.ofNat plan.dims
  projectedAxes := directions
  shotsPerTerm := m.shotsPerTerm
  correlators := m.correlators.values
  sampledTerms := m.estimates
  confidence := m.confidence

theorem yields_hypergraph {plan : HypergraphPlan K} {options : RunOptions K}
    {terms : List (Term K)} {c : Correlators K} {directions : List (Vec3 K)}
    (resolved : plan.terms = .ok terms)
    (evaluated : Correlators.evaluate
      ((DensityMatrix.ghz plan.dims).depolarize options.depolarizing) terms = .ok c)
    (valid : ∀ e ∈ c.values, IsValid e) (shown : plan.primaryDirections = .ok directions) :
    let m := measured c terms.length options.shots
    (hypergraph plan options).Yields fun g =>
      (hypergraphOutcome plan directions (m g).1, (m g).2) := by
  have drawn := yields_measure evaluated valid options.shots
  refine .lift resolved (drawn.bind (w := fun m g => (hypergraphOutcome plan directions m, g)) ?_)
  exact fun m => .lift shown (.pure _)

/-- The report of a chaos run whose terms have been measured. -/
def ezphReport (config : EngineConfig K) (settings : Option (BridgeSettings K))
    (options : RunOptions K) (fraction : K) (chaos : ChaosVector K) (m : Measurement K) :
    EzphReport K :=
  let seed := (settings.map BridgeSettings.seed).getD fallbackSeed
  let ρ := disturbedRegister options chaos
  let payloadBytes := (settings.map BridgeSettings.payloadBytes).getD defaultPayloadBytes
  let ciphertext :=
    Ciphertext.summarize (ciphertextSlots payloadBytes chaos) config.ciphertextScale
  { seed
    seedFraction := fraction
    logisticScalar := chaos.logistic
    chaosEnergy := chaos.energy
    correlators := m.correlators.values
    sampled := m.estimates
    shotsPerTerm := m.shotsPerTerm
    ciphertext
    privacy := Privacy.analyze config.privacy ρ ciphertext.digest
    projection := Projection.ofChaos chaos
    quantumHash := Fingerprint.take config.fingerprint seed ρ }

section Chaos

variable {settings : Option (BridgeSettings K)} {fraction : K} {options : RunOptions K}
  (found : Seed.fraction ((settings.map BridgeSettings.seed).getD fallbackSeed) = .ok fraction)
include found

theorem yields_simulate {engine : ChaosEngine K} {chaos : ChaosVector K} {c : Correlators K}
    (moved : engine fraction = .ok chaos)
    (evaluated : Correlators.evaluate (disturbedRegister options chaos) pauliTerms = .ok c)
    (valid : ∀ e ∈ c.values, IsValid e) (config : EngineConfig K) :
    let m := measured c (pauliTerms : List (Term K)).length options.shots
    (simulate config engine settings options).Yields fun g =>
      (ezphReport config settings options fraction chaos (m g).1, (m g).2) := by
  have drawn := yields_measure evaluated valid options.shots
  have answered : (engine fraction).mapError (Error.sampling <| .panic ·) =
      (.ok chaos : Except (Error K) (ChaosVector K)) := congrArg (Except.mapError _) moved
  exact .lift found (.lift answered (drawn.map (ezphReport config settings options fraction chaos)))

/-- A source of chaos never ends the program. -/
theorem yields_ezph {source : ChaosSource K} {c : Correlators K}
    (evaluated : Correlators.evaluate (disturbedRegister options (source fraction)) pauliTerms =
      .ok c) (valid : ∀ e ∈ c.values, IsValid e) (config : EngineConfig K) :
    let m := measured c (pauliTerms : List (Term K)).length options.shots
    (ezph config source settings options).Yields fun g =>
      (ezphReport config settings options fraction (source fraction) (m g).1, (m g).2) :=
  yields_simulate found rfl evaluated valid config

theorem run_simulate_of_panic {engine : ChaosEngine K} {cause : Panic}
    (ended : engine fraction = .error cause) (config : EngineConfig K) (g : Generator) :
    (simulate config engine settings options).run g = (.error (.sampling (.panic cause)), g) := by
  have start : (liftM (Seed.fraction ((settings.map BridgeSettings.seed).getD fallbackSeed) :
      Except (Error K) K) : Run K K).run g = (.ok fraction, g) := by
    rw [found]
    rfl
  refine (run_bind_ok start).trans (run_bind_error ?_)
  rw [ended]
  rfl

end Chaos

end Nonlocal.Run
