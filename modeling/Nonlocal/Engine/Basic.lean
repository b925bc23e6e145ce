import Nonlocal.Chaos.Vector
import Nonlocal.Fingerprint
import Nonlocal.Privacy
import Nonlocal.Sampler

/-!
The tuning of the engine: chaotic systems, privacy thresholds, sampler seeds, ciphertext scale and
the kind of fingerprint.
-/

namespace Nonlocal

/-- The tuning of the engine. -/
structure EngineConfig (K : Type) where
  chaos : ChaosConfig K
  privacy : PrivacyBounds K
  /-- The sampler seeds of correlator runs and of chaos runs. -/
  sandboxSeed : UInt64
  ezphSeed : UInt64
  ciphertextScale : K
  fingerprint : FingerprintKind

namespace EngineConfig

variable {K : Type} [Scalar K]

/-- The standard tuning. -/
def standard : EngineConfig K where
  chaos := .standard
  privacy := .standard
  sandboxSeed := Sampler.correlatorSeed
  ezphSeed := Sampler.chaosSeed
  ciphertextScale := Scalar.ofNat (Nat.pow 2 40)
  fingerprint := .unitary

/-- Can a flow be integrated over the span? -/
def spanIsSound (span : TimeSpan K) : Bool :=
  Scalar.lt span.start span.finish && 2 ≤ span.samples && span.substeps ≠ 0

/-- Checks the tuning; the first violation is reported. -/
def validate (config : EngineConfig K) : Except (Error K) Unit :=
  let chaos := config.chaos
  let α := config.privacy.reyniAlpha
  if !(Scalar.lt 0 chaos.logisticR && Scalar.le chaos.logisticR 4) then
    .error (.malformed .logisticRate)
  else if !spanIsSound chaos.lorenzSpan then .error (.malformed (.span "lorenz_span"))
  else if !spanIsSound chaos.chuaSpan then .error (.malformed (.span "chua_span"))
  else if !Scalar.lt 0 α || Scalar.lt (Scalar.abs (α - 1)) Privacy.orderResolution then
    .error (.malformed .divergenceOrder)
  else if !Scalar.lt 0 config.ciphertextScale then .error (.malformed .ciphertextScale)
  else .ok ()

end EngineConfig

end Nonlocal
