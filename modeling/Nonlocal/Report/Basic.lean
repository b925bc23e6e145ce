import Nonlocal.Ciphertext
import Nonlocal.Privacy
import Nonlocal.Projection

/-!
The results of runs.
-/

namespace Nonlocal

/-- The shot budget and the noise of a run. -/
structure RunOptions (K : Type) where
  shots : Int64
  depolarizing : K

/-- The outcome of a two-party plan. -/
structure TwoPartyOutcome (K : Type) where
  exact : K
  sampled : K
  classicalLimit : K
  tsirelsonBound : K
  shotsPerTerm : UInt64
  correlators : List K
  sampledTerms : List K
  confidence : K

/-- The outcome of a hypergraph plan. -/
structure HypergraphOutcome (K : Type) where
  exact : K
  sampled : K
  target : K
  dims : UInt64
  projectedAxes : List (Vec3 K)
  shotsPerTerm : UInt64
  correlators : List K
  sampledTerms : List K
  confidence : K

/-- The outcomes of a correlator run. -/
structure SandboxReport (K : Type) where
  twoQubit : Option (TwoPartyOutcome K)
  fiveD : Option (HypergraphOutcome K)
  shots : Int64
  depolarizing : K

/-- The outcome of a chaos run. -/
structure EzphReport (K : Type) where
  seed : String
  seedFraction : K
  logisticScalar : K
  chaosEnergy : K
  correlators : List K
  sampled : List K
  shotsPerTerm : UInt64
  ciphertext : CiphertextSummary K
  privacy : PrivacyMetrics K
  projection : Projection K
  quantumHash : K

/-- Do the exact correlators exceed the classical limit? -/
def TwoPartyOutcome.violatesClassical {K : Type} [Scalar K] (o : TwoPartyOutcome K) : Bool :=
  Scalar.lt o.classicalLimit o.exact

/-- Do the exact correlators exceed the target? -/
def HypergraphOutcome.meetsTarget {K : Type} [Scalar K] (o : HypergraphOutcome K) : Bool :=
  Scalar.lt o.target o.exact

end Nonlocal
