import Nonlocal.Engine.Basic
import Nonlocal.Run.Basic
import Nonlocal.Settings.Basic

/-!
Chaos runs: an entangled register is disturbed by noise and by a sample of chaos, and what is left of
its correlations and of its privacy is reported.
-/

namespace Nonlocal.Run

variable {K : Type} [Numerics K]

/-- The size of the register. -/
def ezphQubits : Nat := 5

/-- The seed of a run without settings. -/
def fallbackSeed : String := "deadbeef"

/-- The terms `XX`, `YY` and `ZZ` on the first two qubits. -/
def pauliTerms : List (Term K) :=
  [⟨Scalar.pi / 2, 0⟩, ⟨Scalar.pi / 2, Scalar.pi / 2⟩, ⟨0, 0⟩].map fun s =>
    ⟨[some s, some s] ++ List.replicate (ezphQubits - 2) none, 1⟩

/-- The slots of the ciphertext: the payload in units of its page size, and three numbers of the
chaos sample. -/
def ciphertextSlots (payloadBytes : UInt64) (chaos : ChaosVector K) : List K :=
  [Scalar.ofNat payloadBytes.toNat / Scalar.ofNat 4096, chaos.logistic, chaos.lorenz.z,
    chaos.chua.x]

/-- The disturbed register. -/
def disturbedRegister (options : RunOptions K) (chaos : ChaosVector K) : DensityMatrix K :=
  ((DensityMatrix.ghz ezphQubits).depolarize options.depolarizing).perturb chaos.noise

/-- Runs with the given engine of chaos. Without settings the fallback seed and the default payload
size are used. -/
def simulate (config : EngineConfig K) (engine : ChaosEngine K)
    (settings : Option (BridgeSettings K)) (options : RunOptions K) : Run K (EzphReport K) := do
  let seed := (settings.map BridgeSettings.seed).getD fallbackSeed
  let fraction ← (Seed.fraction seed : Except (Error K) K)
  let chaos ← ((engine fraction).mapError (Error.sampling <| .panic ·) :
    Except (Error K) (ChaosVector K))
  let ρ := disturbedRegister options chaos
  let payloadBytes := (settings.map BridgeSettings.payloadBytes).getD defaultPayloadBytes
  let ciphertext :=
    Ciphertext.summarize (ciphertextSlots payloadBytes chaos) config.ciphertextScale
  let m ← measure ρ pauliTerms options.shots
  return {
    seed
    seedFraction := fraction
    logisticScalar := chaos.logistic
    chaosEnergy := chaos.energy
    correlators := m.correlators.values
    sampled := m.estimates
    shotsPerTerm := m.shotsPerTerm
    ciphertext
    privacy := Privacy.analyze config.privacy ρ ciphertext.digest
    projection := Projection.ofChaos chaos
    quantumHash := Fingerprint.take config.fingerprint seed ρ }

/-- Runs with a source of chaos that always has an answer. -/
def ezph (config : EngineConfig K) (source : ChaosSource K)
    (settings : Option (BridgeSettings K)) (options : RunOptions K) : Run K (EzphReport K) :=
  simulate config (fun fraction => .ok (source fraction)) settings options

end Nonlocal.Run
