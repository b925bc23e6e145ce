import Nonlocal.Run.Basic
import Nonlocal.Settings.Basic

/-!
Correlator runs: every plan of the settings is evaluated on an entangled state with noise, the
two-party plan first, all on one generator.
-/

namespace Nonlocal.Run

variable {K : Type} [Numerics K]

/-- Evaluates a two-party plan on a Bell pair. -/
def twoParty (plan : TwoPartyPlan K) (options : RunOptions K) : Run K (TwoPartyOutcome K) := do
  let m ← measure (DensityMatrix.bell.depolarize options.depolarizing) plan.terms options.shots
  return {
    exact := m.correlators.exact
    sampled := m.sampled
    classicalLimit := plan.classicalLimit
    tsirelsonBound := plan.tsirelsonBound
    shotsPerTerm := m.shotsPerTerm
    correlators := m.correlators.values
    sampledTerms := m.estimates
    confidence := m.confidence }

/-- Evaluates a hypergraph plan on a state that entangles all of its qubits. -/
def hypergraph (plan : HypergraphPlan K) (options : RunOptions K) :
    Run K (HypergraphOutcome K) := do
  let ρ := (DensityMatrix.ghz plan.dims).depolarize options.depolarizing
  let terms ← (plan.terms : Except (Error K) (List (Term K)))
  let m ← measure ρ terms options.shots
  let projectedAxes ← (plan.primaryDirections : Except (Error K) (List (Vec3 K)))
  return {
    exact := m.correlators.exact
    sampled := m.sampled
    target := plan.targetViolation
    dims := UInt64.ofNat plan.dims
    projectedAxes
    shotsPerTerm := m.shotsPerTerm
    correlators := m.correlators.values
    sampledTerms := m.estimates
    confidence := m.confidence }

/-- Evaluates one plan and enters its outcome into the report. -/
def enter (options : RunOptions K) (report : SandboxReport K) :
    EvaluationPlan K → Run K (SandboxReport K)
  | .twoParty plan => return { report with twoQubit := some (← twoParty plan options) }
  | .hypergraph plan => return { report with fiveD := some (← hypergraph plan options) }

/-- Evaluates all plans of the settings; there has to be one. -/
def sandbox (settings : BridgeSettings K) (options : RunOptions K) : Run K (SandboxReport K) := do
  let plans ← (settings.plans : Except (Error K) (List (EvaluationPlan K)))
  if plans.isEmpty then
    throw (.malformed .noPlan)
  plans.foldlM (enter options)
    { twoQubit := none, fiveD := none, shots := options.shots
      depolarizing := options.depolarizing }

end Nonlocal.Run
