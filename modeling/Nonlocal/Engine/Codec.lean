import Nonlocal.Engine.Basic
import Nonlocal.Json.Decode

/-!
The tuning of the engine as JSON. Every field can be left out and then has its standard value; of a
span only the substeps can.
-/

namespace Nonlocal

open Json

/-! ## Reading -/

/-- Reads a point of space. -/
def Vec3.decode : Decoder (Vec3 Float) := fun d =>
  (floatTriple d).map fun (x, y, z) => ⟨x, y, z⟩

/-- Reads a span of time. -/
def TimeSpan.decode : Decoder (TimeSpan Float) :=
  (Fields.field "start" float
    |>.and (.field "end" float)
    |>.and (.field "samples" size)
    |>.and (.fieldOr "substeps" size TimeSpan.defaultSubsteps)
    |>.map fun (((start, finish), samples), substeps) =>
      { start, finish, samples, substeps }).decode "TimeSpan"

/-- Reads the parameters of the chaotic systems. -/
def ChaosConfig.decode : Decoder (ChaosConfig Float) :=
  let standard : ChaosConfig Float := .standard
  (Fields.fieldOr "lorenz_sigma" float standard.lorenzSigma
    |>.and (.fieldOr "lorenz_rho" float standard.lorenzRho)
    |>.and (.fieldOr "lorenz_beta" float standard.lorenzBeta)
    |>.and (.fieldOr "lorenz_initial" Vec3.decode standard.lorenzInitial)
    |>.and (.fieldOr "lorenz_span" TimeSpan.decode standard.lorenzSpan)
    |>.and (.fieldOr "chua_alpha" float standard.chuaAlpha)
    |>.and (.fieldOr "chua_beta" float standard.chuaBeta)
    |>.and (.fieldOr "chua_gamma" float standard.chuaGamma)
    |>.and (.fieldOr "chua_m0" float standard.chuaM0)
    |>.and (.fieldOr "chua_m1" float standard.chuaM1)
    |>.and (.fieldOr "chua_initial" Vec3.decode standard.chuaInitial)
    |>.and (.fieldOr "chua_span" TimeSpan.decode standard.chuaSpan)
    |>.and (.fieldOr "logistic_r" float standard.logisticR)
    |>.and (.fieldOr "logistic_steps" size standard.logisticSteps)
    |>.map fun (((((((((((((lorenzSigma, lorenzRho), lorenzBeta), lorenzInitial), lorenzSpan),
        chuaAlpha), chuaBeta), chuaGamma), chuaM0), chuaM1), chuaInitial), chuaSpan), logisticR),
        logisticSteps) =>
      { lorenzSigma, lorenzRho, lorenzBeta, lorenzInitial, lorenzSpan, chuaAlpha, chuaBeta,
        chuaGamma, chuaM0, chuaM1, chuaInitial, chuaSpan, logisticR, logisticSteps }).decode
    "ChaosConfig"

/-- Reads the privacy thresholds. -/
def PrivacyBounds.decode : Decoder (PrivacyBounds Float) :=
  let standard : PrivacyBounds Float := .standard
  (Fields.fieldOr "max_entropy_leak_bits" float standard.maxEntropyLeakBits
    |>.and (.fieldOr "min_reyni_divergence" float standard.minReyniDivergence)
    |>.and (.fieldOr "max_hockey_stick_delta" float standard.maxHockeyStickDelta)
    |>.and (.fieldOr "reyni_alpha" float standard.reyniAlpha)
    |>.and (.fieldOr "reyni_scale" float standard.reyniScale)
    |>.and (.fieldOr "hockey_stick_scale" float standard.hockeyStickScale)
    |>.and (.fieldOr "amplification_gain" float standard.amplificationGain)
    |>.and (.fieldOr "amplification_ceiling" float standard.amplificationCeiling)
    |>.map fun (((((((maxEntropyLeakBits, minReyniDivergence), maxHockeyStickDelta), reyniAlpha),
        reyniScale), hockeyStickScale), amplificationGain), amplificationCeiling) =>
      { maxEntropyLeakBits, minReyniDivergence, maxHockeyStickDelta, reyniAlpha, reyniScale,
        hockeyStickScale, amplificationGain, amplificationCeiling }).decode "PrivacyBounds"

/-- The names of the kinds of fingerprint. -/
def FingerprintKind.variants : List (String × FingerprintKind) :=
  [("unitary", .unitary), ("induced-norm", .inducedNorm)]

/-- Reads a kind of fingerprint. -/
def FingerprintKind.decode : Decoder FingerprintKind :=
  variant FingerprintKind.variants

/-- Reads the sampler seeds. -/
def EngineConfig.decodeSeeds : Decoder (UInt64 × UInt64) :=
  (Fields.fieldOr "sandbox_seed" word Sampler.correlatorSeed
    |>.and (.fieldOr "ezph_seed" word Sampler.chaosSeed)).decode "SamplerConfig"

/-- Reads the ciphertext scale. -/
def EngineConfig.decodeScale : Decoder Float :=
  (Fields.fieldOr "ciphertext_scale" float (EngineConfig.standard : EngineConfig Float).ciphertextScale).decode
    "FheConfig"

/-- Reads the tuning of the engine. -/
def EngineConfig.decode : Decoder (EngineConfig Float) :=
  let standard : EngineConfig Float := .standard
  (Fields.fieldOr "chaos" ChaosConfig.decode standard.chaos
    |>.and (.fieldOr "privacy" PrivacyBounds.decode standard.privacy)
    |>.and (.fieldOr "sampler" decodeSeeds (standard.sandboxSeed, standard.ezphSeed))
    |>.and (.fieldOr "fhe" decodeScale standard.ciphertextScale)
    |>.and (.fieldOr "hash_backend" FingerprintKind.decode standard.fingerprint)
    |>.map fun ((((chaos, privacy), (sandboxSeed, ezphSeed)), ciphertextScale), fingerprint) =>
      { chaos, privacy, sandboxSeed, ezphSeed, ciphertextScale, fingerprint }).decode
    "EngineConfig"

/-! ## Writing -/

/-- A point of space as JSON. -/
def Vec3.toJson (v : Vec3 Float) : Json :=
  .ofList .ofFloat v.toList

/-- A span of time as JSON. -/
def TimeSpan.toJson (span : TimeSpan Float) : Json :=
  .object [("start", .ofFloat span.start), ("end", .ofFloat span.finish),
    ("samples", .ofWord span.samples), ("substeps", .ofWord span.substeps)]

/-- The parameters of the chaotic systems as JSON. -/
def ChaosConfig.toJson (c : ChaosConfig Float) : Json :=
  .object [("lorenz_sigma", .ofFloat c.lorenzSigma), ("lorenz_rho", .ofFloat c.lorenzRho),
    ("lorenz_beta", .ofFloat c.lorenzBeta), ("lorenz_initial", c.lorenzInitial.toJson),
    ("lorenz_span", c.lorenzSpan.toJson), ("chua_alpha", .ofFloat c.chuaAlpha),
    ("chua_beta", .ofFloat c.chuaBeta), ("chua_gamma", .ofFloat c.chuaGamma),
    ("chua_m0", .ofFloat c.chuaM0), ("chua_m1", .ofFloat c.chuaM1),
    ("chua_initial", c.chuaInitial.toJson), ("chua_span", c.chuaSpan.toJson),
    ("logistic_r", .ofFloat c.logisticR), ("logistic_steps", .ofWord c.logisticSteps)]

/-- The privacy thresholds as JSON. -/
def PrivacyBounds.toJson (b : PrivacyBounds Float) : Json :=
  .object [("max_entropy_leak_bits", .ofFloat b.maxEntropyLeakBits),
    ("min_reyni_divergence", .ofFloat b.minReyniDivergence),
    ("max_hockey_stick_delta", .ofFloat b.maxHockeyStickDelta),
    ("reyni_alpha", .ofFloat b.reyniAlpha), ("reyni_scale", .ofFloat b.reyniScale),
    ("hockey_stick_scale", .ofFloat b.hockeyStickScale),
    ("amplification_gain", .ofFloat b.amplificationGain),
    ("amplification_ceiling", .ofFloat b.amplificationCeiling)]

/-- The name of a kind of fingerprint. -/
def FingerprintKind.name : FingerprintKind → String
  | .unitary => "unitary"
  | .inducedNorm => "induced-norm"

/-- The tuning of the engine as JSON. -/
def EngineConfig.toJson (c : EngineConfig Float) : Json :=
  .object [("chaos", c.chaos.toJson), ("privacy", c.privacy.toJson),
    ("sampler", .object [("sandbox_seed", .ofWord c.sandboxSeed), ("ezph_seed", .ofWord c.ezphSeed)]),
    ("fhe", .object [("ciphertext_scale", .ofFloat c.ciphertextScale)]),
    ("hash_backend", .string c.fingerprint.name)]

end Nonlocal
