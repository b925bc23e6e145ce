import Nonlocal.Decimal.Shortest
import Nonlocal.Report.Basic
import Nonlocal.Settings.Basic

/-!
Results for the eye: the summaries that a run prints.
-/

namespace Nonlocal

open Decimal

/-- Lines of text, each with its line end. -/
def unlines (lines : List String) : String :=
  String.join (lines.map (· ++ "\n"))

/-- The coordinates of a point, with their signs. -/
def Vec3.text (v : Vec3 Float) : String :=
  s!"({signed 3 v.x}, {signed 3 v.y}, {signed 3 v.z})"

/-- The section of a two-party outcome. -/
def TwoPartyOutcome.summary (o : TwoPartyOutcome Float) : List String :=
  let status := if o.violatesClassical then "VIOLATION ✅" else "classical ✖"
  ["",
    "Two-qubit CHSH:",
    s!"  Exact S     : {fixed 4 o.exact}",
    s!"  Sampled S   : {fixed 4 o.sampled} ± {fixed 4 o.confidence} (shots/term ~ {o.shotsPerTerm})",
    s!"  Classical   : {fixed 4 o.classicalLimit}",
    s!"  Tsirelson   : {fixed 4 o.tsirelsonBound}",
    s!"  Status      : {status}"]

/-- The section of a hypergraph outcome. -/
def HypergraphOutcome.summary (o : HypergraphOutcome Float) : List String :=
  let status := if o.meetsTarget then "VIOLATION ✅" else "below target ✖"
  ["",
    s!"{o.dims}D Hypergraph Correlator:",
    s!"  Exact S_5D  : {fixed 4 o.exact}",
    s!"  Sampled S_5D: {fixed 4 o.sampled} ± {fixed 4 o.confidence} (shots/edge ~ {o.shotsPerTerm})",
    s!"  Target      : {fixed 4 o.target}",
    s!"  Status      : {status}",
    "",
    "Projected (5D → 3D) axis preview:"]
  ++ o.projectedAxes.zipIdx.map fun (v, i) => s!"  axis-{i}: {v.text}"

/-- The summary of a correlator run. -/
def SandboxReport.summary (settings : BridgeSettings Float) (r : SandboxReport Float) : String :=
  unlines
    (["=== QRNG-Seeded CHSH Sandbox ===",
        s!"QRNG epoch: {settings.epoch} · seed: {settings.seed}..."]
      ++ (settings.receipt.map fun receipt => s!"Tuple ID: {receipt.tupleId}").toList
      ++ (r.twoQubit.map TwoPartyOutcome.summary).getD []
      ++ (r.fiveD.map HypergraphOutcome.summary).getD [])

/-- The line of one correlator of a chaos run. -/
def EzphReport.termLine (index : Nat) (exact sampled : Float) : String :=
  s!"  term-{index}: exact={signed 4 exact} sampled={signed 4 sampled}"

/-- The line of one axis of a projection. -/
def AxisProjection.line (a : AxisProjection Float) : String :=
  s!"  {a.axis.name}: {a.vector.text} |v|={fixed 3 a.norm}"

/-- The summary of a chaos run. -/
def EzphReport.summary (r : EzphReport Float) : String :=
  let scale := plain r.ciphertext.scale.log2.round
  let satisfied := if r.privacy.satisfied then "YES" else "NO"
  unlines
    (["=== 5D-EZPH Prototype ===",
        s!"Seed: {r.seed} · logistic={fixed 6 r.logisticScalar}",
        s!"Chaos energy: {fixed 4 r.chaosEnergy}",
        s!"Ciphertext digest: {fixed 4 r.ciphertext.digest} ({r.ciphertext.slots} slots, scale 2^{scale})",
        "Correlators (exact vs sampled):"]
      ++ ((r.correlators.zip r.sampled).zipIdx.map fun ((exact, sampled), i) =>
        EzphReport.termLine i exact sampled)
      ++ ["Privacy metrics:",
        s!"  Rényi divergence: {fixed 3 r.privacy.reyniDivergence} · leak bits ≤ {scientific 3 r.privacy.entropyLeakBits}",
        s!"  Hockey-stick δ: {scientific 3 r.privacy.hockeyStickDelta} · amplification ≤ {scientific 1 r.privacy.amplificationBound}",
        s!"  Satisfied: {satisfied}",
        s!"Quantum hash: {fixed 6 r.quantumHash}",
        "Projection (5D→3D axes):"]
      ++ r.projection.axes.map AxisProjection.line)

end Nonlocal
