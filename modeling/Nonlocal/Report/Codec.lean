import Nonlocal.Engine.Codec
import Nonlocal.Report.Basic

/-!
Result records as JSON.

A projection is recorded as two objects over the names of its axes, one for the vectors and one for
their lengths; it is read back in the order of the axes, whatever the order of the entries.
-/

namespace Nonlocal

open Json

/-! ## Writing -/

/-- The outcome of a two-party plan as JSON. -/
def TwoPartyOutcome.toJson (o : TwoPartyOutcome Float) : Json :=
  .object [("exact", .ofFloat o.exact), ("sampled", .ofFloat o.sampled),
    ("classical_limit", .ofFloat o.classicalLimit), ("tsirelson_bound", .ofFloat o.tsirelsonBound),
    ("shots_per_term", .ofWord o.shotsPerTerm), ("correlators", .ofList .ofFloat o.correlators),
    ("sampled_terms", .ofList .ofFloat o.sampledTerms), ("confidence_99", .ofFloat o.confidence)]

/-- The outcome of a hypergraph plan as JSON. -/
def HypergraphOutcome.toJson (o : HypergraphOutcome Float) : Json :=
  .object [("exact", .ofFloat o.exact), ("sampled", .ofFloat o.sampled),
    ("target", .ofFloat o.target), ("dims", .ofWord o.dims),
    ("projected_axes", .ofList Vec3.toJson o.projectedAxes),
    ("shots_per_term", .ofWord o.shotsPerTerm), ("correlators", .ofList .ofFloat o.correlators),
    ("sampled_terms", .ofList .ofFloat o.sampledTerms), ("confidence_99", .ofFloat o.confidence)]

/-- An entry that is left out when there is nothing to enter. -/
def optionalEntry {α : Type} (name : String) (f : α → Json) : Option α → List (String × Json)
  | some x => [(name, f x)]
  | none => []

/-- The outcomes of a correlator run as JSON; plans that were not evaluated are left out. -/
def SandboxReport.toJson (r : SandboxReport Float) : Json :=
  .object (optionalEntry "two_qubit" TwoPartyOutcome.toJson r.twoQubit
    ++ optionalEntry "five_d" HypergraphOutcome.toJson r.fiveD
    ++ [("shots", .integer r.shots.toInt), ("depolarizing", .ofFloat r.depolarizing)])

/-- A ciphertext summary as JSON. -/
def CiphertextSummary.toJson (c : CiphertextSummary Float) : Json :=
  .object [("digest", .ofFloat c.digest), ("slots", .ofWord c.slots), ("scale", .ofFloat c.scale)]

/-- The privacy report as JSON. -/
def PrivacyMetrics.toJson (m : PrivacyMetrics Float) : Json :=
  .object [("entropy_leak_bits", .ofFloat m.entropyLeakBits),
    ("reyni_divergence", .ofFloat m.reyniDivergence),
    ("hockey_stick_delta", .ofFloat m.hockeyStickDelta),
    ("amplification_bound", .ofFloat m.amplificationBound),
    ("ciphertext_digest", .ofFloat m.ciphertextDigest), ("satisfied", .boolean m.satisfied)]

/-- A projection as JSON. -/
def Projection.toJson (p : Projection Float) : Json :=
  .object [("axes", .object (p.axes.map fun a => (a.axis.name, a.vector.toJson))),
    ("norms", .object (p.axes.map fun a => (a.axis.name, .ofFloat a.norm)))]

/-- The outcome of a chaos run as JSON. -/
def EzphReport.toJson (r : EzphReport Float) : Json :=
  .object [("seed", .string r.seed), ("seed_fraction", .ofFloat r.seedFraction),
    ("logistic_scalar", .ofFloat r.logisticScalar), ("chaos_energy", .ofFloat r.chaosEnergy),
    ("correlators", .ofList .ofFloat r.correlators), ("sampled", .ofList .ofFloat r.sampled),
    ("shots_per_term", .ofWord r.shotsPerTerm), ("ciphertext", r.ciphertext.toJson),
    ("privacy", r.privacy.toJson), ("projection", r.projection.toJson),
    ("quantum_hash", .ofFloat r.quantumHash)]

/-! ## Reading -/

/-- Reads the outcome of a two-party plan. -/
def TwoPartyOutcome.decode : Decoder (TwoPartyOutcome Float) :=
  (Fields.field "exact" float
    |>.and (.field "sampled" float)
    |>.and (.field "classical_limit" float)
    |>.and (.field "tsirelson_bound" float)
    |>.and (.field "shots_per_term" word)
    |>.and (.field "correlators" (listOf float))
    |>.and (.field "sampled_terms" (listOf float))
    |>.and (.field "confidence_99" float)
    |>.map fun (((((((exact, sampled), classicalLimit), tsirelsonBound), shotsPerTerm),
        correlators), sampledTerms), confidence) =>
      { exact, sampled, classicalLimit, tsirelsonBound, shotsPerTerm, correlators, sampledTerms,
        confidence }).decode "TwoPartyOutcome"

/-- Reads the outcome of a hypergraph plan. -/
def HypergraphOutcome.decode : Decoder (HypergraphOutcome Float) :=
  (Fields.field "exact" float
    |>.and (.field "sampled" float)
    |>.and (.field "target" float)
    |>.and (.field "dims" size)
    |>.and (.field "projected_axes" (listOf Vec3.decode))
    |>.and (.field "shots_per_term" word)
    |>.and (.field "correlators" (listOf float))
    |>.and (.field "sampled_terms" (listOf float))
    |>.and (.field "confidence_99" float)
    |>.map fun ((((((((exact, sampled), target), dims), projectedAxes), shotsPerTerm),
        correlators), sampledTerms), confidence) =>
      { exact, sampled, target, dims, projectedAxes, shotsPerTerm, correlators, sampledTerms,
        confidence }).decode "HypergraphOutcome"

/-- Reads the outcomes of a correlator run. -/
def SandboxReport.decode : Decoder (SandboxReport Float) :=
  (Fields.optionalField "two_qubit" TwoPartyOutcome.decode
    |>.and (.optionalField "five_d" HypergraphOutcome.decode)
    |>.and (.field "shots" signedWord)
    |>.and (.field "depolarizing" float)
    |>.map fun (((twoQubit, fiveD), shots), depolarizing) =>
      { twoQubit, fiveD, shots, depolarizing }).decode "SandboxReport"

/-- Reads a ciphertext summary. -/
def CiphertextSummary.decode : Decoder (CiphertextSummary Float) :=
  (Fields.field "digest" float
    |>.and (.field "slots" size)
    |>.and (.field "scale" float)
    |>.map fun ((digest, slots), scale) => { digest, slots, scale }).decode "CiphertextSummary"

/-- Reads a privacy report. -/
def PrivacyMetrics.decode : Decoder (PrivacyMetrics Float) :=
  (Fields.field "entropy_leak_bits" float
    |>.and (.field "reyni_divergence" float)
    |>.and (.field "hockey_stick_delta" float)
    |>.and (.field "amplification_bound" float)
    |>.and (.field "ciphertext_digest" float)
    |>.and (.field "satisfied" truth)
    |>.map fun (((((entropyLeakBits, reyniDivergence), hockeyStickDelta), amplificationBound),
        ciphertextDigest), satisfied) =>
      { entropyLeakBits, reyniDivergence, hockeyStickDelta, amplificationBound, ciphertextDigest,
        satisfied }).decode "PrivacyMetrics"

namespace Projection

/-- The axes by their names. -/
def axisVariants : List (String × Axis) :=
  Axis.all.map fun axis => (axis.name, axis)

/-- Reads the name of an axis that stands as a key. -/
def axisKey (key : Leaf String) : Except Fault Axis := do
  choose axisVariants (← key.value)

/-- The value of the last entry of an axis. -/
def lastOf? {α : Type} (axis : Axis) (entries : List (Axis × α)) : Option α :=
  entries.reverse.lookup axis

/-- Joins vectors and lengths along the given axes. An axis has both or neither. -/
def assemble (vectors : List (Axis × Vec3 Float)) (norms : List (Axis × Float)) :
    List Axis → Except Fault (List (AxisProjection Float))
  | [] => .ok []
  | axis :: rest =>
    match lastOf? axis vectors, lastOf? axis norms with
    | some vector, some norm => do return ⟨axis, vector, norm⟩ :: (← assemble vectors norms rest)
    | none, none => assemble vectors norms rest
    | _, _ => .error (.axisIncomplete axis.name)

/-- Reads a projection. -/
def decode : Decoder (Projection Float) := fun d => do
  let (vectors, norms) ←
    (Fields.field "axes" (mapOf axisKey Vec3.decode)
      |>.and (.field "norms" (mapOf axisKey float))).decode "ProjectionRecord" d
  return ⟨← assemble vectors norms Axis.all⟩

end Projection

/-- Reads the outcome of a chaos run. -/
def EzphReport.decode : Decoder (EzphReport Float) :=
  (Fields.field "seed" text
    |>.and (.field "seed_fraction" float)
    |>.and (.field "logistic_scalar" float)
    |>.and (.field "chaos_energy" float)
    |>.and (.field "correlators" (listOf float))
    |>.and (.field "sampled" (listOf float))
    |>.and (.field "shots_per_term" word)
    |>.and (.field "ciphertext" CiphertextSummary.decode)
    |>.and (.field "privacy" PrivacyMetrics.decode)
    |>.and (.field "projection" Projection.decode)
    |>.and (.field "quantum_hash" float)
    |>.map fun ((((((((((seed, seedFraction), logisticScalar), chaosEnergy), correlators),
        sampled), shotsPerTerm), ciphertext), privacy), projection), quantumHash) =>
      { seed, seedFraction, logisticScalar, chaosEnergy, correlators, sampled, shotsPerTerm,
        ciphertext, privacy, projection, quantumHash }).decode "EzphReport"

end Nonlocal
