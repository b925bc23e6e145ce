import Std.Data.ExtTreeMap
import Nonlocal.Correlator
import Nonlocal.Json.Value
import Nonlocal.Text.Blank

/-!
Measurement settings of a run: the seed, an opaque receipt, and two plans of what to measure.

The two-party plan gives each of two parties a pair of angles. The hypergraph plan gives each qubit
named settings, and lists hyperedges that choose one of them on some of the qubits.
`HypergraphPlan.of` admits the plans whose hyperedges all resolve, and reports the first violation
otherwise.
-/

namespace Nonlocal

/-- The two angles between which a party chooses. -/
structure PartySettings (K : Type) where
  first : K
  second : K

/-- Angles of both parties, and the bounds that their correlators are compared with. -/
structure TwoPartyPlan (K : Type) where
  alice : PartySettings K
  bob : PartySettings K
  classicalLimit : K
  tsirelsonBound : K

/-- The named settings of one qubit. -/
abbrev AxisSet (K : Type) := Std.ExtTreeMap String (Setting K)

/-- The name of the setting that every qubit must have. -/
def primarySelector : String := "primary"

/-- The primary setting of a qubit. -/
def AxisSet.primary? {K : Type} (axis : AxisSet K) : Option (Setting K) :=
  axis[primarySelector]?

/-- Which qubits take part in a correlator, with which of their settings, and its sign. -/
structure Hyperedge (K : Type) where
  participants : List UInt64
  basis : List String
  sign : K

/-- The settings of all qubits, and the value that the hyperedges together should exceed. -/
structure AxesSection (K : Type) where
  axes : List (AxisSet K)
  targetViolation : K

/-- A plan whose hyperedges all resolve against its axes. -/
structure HypergraphPlan (K : Type) where
  axes : List (AxisSet K)
  hyperedges : List (Hyperedge K)
  targetViolation : K

/-- A receipt that is handed through. Entries that are not known are kept. -/
structure TupleReceipt where
  tupleId : String
  payloadBytes : UInt64
  extra : Std.ExtTreeMap String Json

/-- One of the two things to measure. -/
inductive EvaluationPlan (K : Type) where
  | twoParty (plan : TwoPartyPlan K)
  | hypergraph (plan : HypergraphPlan K)

/-- The settings of a run. -/
structure BridgeSettings (K : Type) where
  epoch : UInt64
  seed : String
  receipt : Option TupleReceipt
  twoQubit : Option (TwoPartyPlan K)
  fiveD : Option (AxesSection K)
  hyperedges : List (Hyperedge K)

/-- The payload size of settings without a receipt. -/
def defaultPayloadBytes : UInt64 := 2048

variable {K : Type} [Scalar K]

namespace TwoPartyPlan

/-- Are all angles and bounds finite? -/
def isFinite (plan : TwoPartyPlan K) : Bool :=
  [plan.alice.first, plan.alice.second, plan.bob.first, plan.bob.second, plan.classicalLimit,
    plan.tsirelsonBound].all Scalar.isFinite

/-- The four signed terms of the plan. -/
def terms (plan : TwoPartyPlan K) : List (Term K) :=
  chshTerms (.planar plan.alice.first) (.planar plan.alice.second) (.planar plan.bob.first)
    (.planar plan.bob.second)

end TwoPartyPlan

namespace HypergraphPlan

/-- The number of qubits. -/
def dims {K : Type} (plan : HypergraphPlan K) : Nat :=
  plan.axes.length

/-- Checks the settings of one qubit. -/
def checkAxis (index : Nat) (axis : AxisSet K) : Except (Error K) Unit :=
  if axis.primary?.isNone then .error (.malformed (.axisWithoutPrimary index))
  else if axis.toList.any fun (_, s) => !s.isFinite then
    .error (.malformed (.axisNotFinite index))
  else .ok ()

/-- Checks the qubits of a hyperedge one after the other; `seen` holds those before. -/
def checkParticipants (axes : List (AxisSet K)) (edge : Nat) (seen : List UInt64) :
    List (UInt64 × String) → Except (Error K) Unit
  | [] => .ok ()
  | (q, selector) :: rest =>
    match axes[q.toNat]? with
    | none => .error (.malformed (.edgeQubit edge q.toNat axes.length))
    | some axis =>
      if q ∈ seen then .error (.malformed (.edgeRepeats edge q.toNat))
      else if axis[selector]?.isNone then
        .error (.malformed (.edgeSelector edge selector q.toNat))
      else checkParticipants axes edge (q :: seen) rest

/-- Checks one hyperedge. -/
def checkEdge (axes : List (AxisSet K)) (index : Nat) (edge : Hyperedge K) :
    Except (Error K) Unit :=
  if edge.participants.length ≠ edge.basis.length then
    .error (.malformed (.edgeArity index edge.participants.length edge.basis.length))
  else if !(Scalar.eq edge.sign 1 || Scalar.eq edge.sign (-1)) then
    .error (.malformed (.edgeSign index edge.sign))
  else checkParticipants axes index [] (edge.participants.zip edge.basis)

/-- Checks each element of a list together with its position. -/
def checkAll {α : Type} (check : Nat → α → Except (Error K) Unit) (index : Nat) :
    List α → Except (Error K) Unit
  | [] => .ok ()
  | x :: rest => do
    check index x
    checkAll check (index + 1) rest

/-- The plan with the given parts, if its axes can be simulated and its hyperedges resolve. -/
def of (axes : List (AxisSet K)) (hyperedges : List (Hyperedge K)) (targetViolation : K) :
    Except (Error K) (HypergraphPlan K) := do
  if axes.isEmpty || DensityMatrix.maxQubits < axes.length then
    throw (.malformed (.axisCount axes.length))
  if !Scalar.isFinite targetViolation then
    throw (.malformed .targetNotFinite)
  checkAll checkAxis 0 axes
  checkAll (checkEdge axes) 0 hyperedges
  return ⟨axes, hyperedges, targetViolation⟩

/-- The factors of a hyperedge, starting from those in `factors`. -/
def resolve (axes : List (AxisSet K)) (edge : Nat) (factors : List (Option (Setting K))) :
    List (UInt64 × String) → Except (Error K) (List (Option (Setting K)))
  | [] => .ok factors
  | (q, selector) :: rest =>
    match axes[q.toNat]?.bind (·[selector]?) with
    | none => .error (.malformed (.termUnresolved edge selector q.toNat))
    | some setting => resolve axes edge (factors.set q.toNat (some setting)) rest

/-- The term of a hyperedge. -/
def edgeTerm (axes : List (AxisSet K)) (index : Nat) (edge : Hyperedge K) :
    Except (Error K) (Term K) := do
  let factors ← resolve axes index (List.replicate axes.length none)
    (edge.participants.zip edge.basis)
  return ⟨factors, edge.sign⟩

/-- The terms of hyperedges that are counted from `index`. -/
def termsFrom (axes : List (AxisSet K)) (index : Nat) :
    List (Hyperedge K) → Except (Error K) (List (Term K))
  | [] => .ok []
  | edge :: rest => do
    let term ← edgeTerm axes index edge
    return term :: (← termsFrom axes (index + 1) rest)

/-- One term for each hyperedge, in order. -/
def terms (plan : HypergraphPlan K) : Except (Error K) (List (Term K)) :=
  termsFrom plan.axes 0 plan.hyperedges

/-- The directions of the primary settings of qubits that are counted from `index`. -/
def primaryDirectionsFrom (index : Nat) :
    List (AxisSet K) → Except (Error K) (List (Vec3 K))
  | [] => .ok []
  | axis :: rest =>
    match axis.primary? with
    | none => .error (.malformed (.primaryMissing index))
    | some s => do return s.direction :: (← primaryDirectionsFrom (index + 1) rest)

/-- The direction of each qubit's primary setting. -/
def primaryDirections (plan : HypergraphPlan K) : Except (Error K) (List (Vec3 K)) :=
  primaryDirectionsFrom 0 plan.axes

end HypergraphPlan

namespace BridgeSettings

/-- The plan of the two parties, if there is one. -/
def twoPartyPlans (s : BridgeSettings K) : Except (Error K) (List (EvaluationPlan K)) :=
  match s.twoQubit with
  | none => .ok []
  | some plan =>
    if plan.isFinite then .ok [.twoParty plan] else .error (.malformed .twoPartyNotFinite)

/-- The plan of the hyperedges, if there are axes for them. -/
def hypergraphPlans (s : BridgeSettings K) : Except (Error K) (List (EvaluationPlan K)) :=
  match s.fiveD with
  | some axesPart => do
    let plan ← HypergraphPlan.of axesPart.axes s.hyperedges axesPart.targetViolation
    return [.hypergraph plan]
  | none =>
    if s.hyperedges.isEmpty then .ok [] else .error (.malformed .edgesWithoutAxes)

/-- What there is to evaluate, the two-party plan first. -/
def plans (s : BridgeSettings K) : Except (Error K) (List (EvaluationPlan K)) := do
  let two ← s.twoPartyPlans
  let many ← s.hypergraphPlans
  return two ++ many

/-- Is the seed blank? -/
def seedIsBlank {K : Type} (s : BridgeSettings K) : Bool :=
  s.seed.toList.all Text.isBlank

/-- Checks that there is a seed and that the plans are sound. -/
def validate (s : BridgeSettings K) : Except (Error K) Unit :=
  if s.seedIsBlank then .error (.malformed .seedBlank) else s.plans.map fun _ => ()

/-- The size of the payload that the receipt is for. -/
def payloadBytes {K : Type} (s : BridgeSettings K) : UInt64 :=
  (s.receipt.map TupleReceipt.payloadBytes).getD defaultPayloadBytes

end BridgeSettings

end Nonlocal
