import Nonlocal.Json.Decode
import Nonlocal.Settings.Basic

/-!
Settings as JSON.

Every part has a decoder and an encoder; entries that are not known are passed over, except in a
receipt, which keeps them.
-/

namespace Nonlocal

open Json

/-! ## Reading -/

/-- Reads a measurement setting. -/
def Setting.decode : Decoder (Setting Float) :=
  (Fields.field "theta" float |>.and (.field "phi" float)
    |>.map fun (theta, phi) => ⟨theta, phi⟩).decode "MeasurementSetting"

/-- Reads the angles of a party. -/
def PartySettings.decode : Decoder (PartySettings Float) :=
  (Fields.field "angles" floatPair |>.map fun (a, b) => ⟨a, b⟩).decode "PartySettings"

/-- Reads a two-party plan. -/
def TwoPartyPlan.decode : Decoder (TwoPartyPlan Float) :=
  (Fields.field "alice" PartySettings.decode
    |>.and (.field "bob" PartySettings.decode)
    |>.and (.field "classical_limit" float)
    |>.and (.field "tsirelson_bound" float)
    |>.map fun (((alice, bob), classicalLimit), tsirelsonBound) =>
      { alice, bob, classicalLimit, tsirelsonBound }).decode "TwoPartyPlan"

/-- Reads the named settings of a qubit; the last of several settings of a name counts. -/
def AxisSet.decode : Decoder (AxisSet Float) := fun d => do
  let entries ← mapOf Leaf.value Setting.decode d
  return entries.foldl (fun axis (name, s) => axis.insert name s) ∅

/-- Reads a hyperedge. -/
def Hyperedge.decode : Decoder (Hyperedge Float) :=
  (Fields.field "participants" (listOf size)
    |>.and (.field "basis" (listOf text))
    |>.and (.field "sign" float)
    |>.map fun ((participants, basis), sign) => { participants, basis, sign }).decode "Hyperedge"

/-- Reads the axes of a hypergraph plan. -/
def AxesSection.decode : Decoder (AxesSection Float) :=
  (Fields.field "axes" (listOf AxisSet.decode)
    |>.and (.field "target_violation" float)
    |>.map fun (axes, targetViolation) => { axes, targetViolation }).decode "FiveDSection"

namespace TupleReceipt

/-- The known fields of a receipt. -/
def fields : Fields (String × UInt64) :=
  Fields.field "tuple_id" text |>.and (.fieldOr "payload_bytes" size defaultPayloadBytes)

/-- Takes the entries of a receipt; those that are no known fields are added to `extra`. -/
def takeEntries (depth : Nat) : fields.State → Std.ExtTreeMap String Json →
    List (Leaf String × Document) → Except Fault (fields.State × Std.ExtTreeMap String Json)
  | s, extra, [] => .ok (s, extra)
  | s, extra, (key, d) :: rest => do
    let name ← key.value
    match fields.take s name d with
    | some taken => takeEntries depth (← taken) extra rest
    | none => do
      let value ← d.toJson depth
      takeEntries depth s (extra.insert name value) rest

/-- Reads a receipt that stands inside of `depth` objects. -/
def decode (depth : Nat) : Decoder TupleReceipt
  | .object entries close => do
    let (s, extra) ← takeEntries (depth + 1) fields.start ∅ entries
    close.finish
    let (tupleId, payloadBytes) ← fields.finish s
    return { tupleId, payloadBytes, extra }
  | d => .error (mismatch "struct TupleReceipt" d)

end TupleReceipt

/-- Reads the settings of a run. -/
def BridgeSettings.decode : Decoder (BridgeSettings Float) :=
  (Fields.fieldOr "qrng_epoch" word 0
    |>.and (.field "qrng_seed_hex" text)
    |>.and (.fieldOr "tuple_receipt" (optional (TupleReceipt.decode 1)) none)
    |>.and (.fieldOr "two_qubit" (optional TwoPartyPlan.decode) none)
    |>.and (.fieldOr "five_d" (optional AxesSection.decode) none)
    |>.and (.fieldOr "hyperedges" (listOf Hyperedge.decode) [])
    |>.map fun (((((epoch, seed), receipt), twoQubit), fiveD), hyperedges) =>
      { epoch, seed, receipt, twoQubit, fiveD, hyperedges }).decode "BridgeSettings"

/-- Reads the settings of a run from a text, and validates them. -/
def BridgeSettings.ofText (text : String) : Except (Error Float) (BridgeSettings Float) := do
  match decodeText BridgeSettings.decode text with
  | .error fault => throw (.malformed (.unreadable fault))
  | .ok settings =>
    settings.validate
    return settings

/-! ## Writing -/

/-- A setting as JSON. -/
def Setting.toJson (s : Setting Float) : Json :=
  .object [("theta", .ofFloat s.theta), ("phi", .ofFloat s.phi)]

/-- The angles of a party as JSON. -/
def PartySettings.toJson (p : PartySettings Float) : Json :=
  .object [("angles", .ofList .ofFloat [p.first, p.second])]

/-- A two-party plan as JSON. -/
def TwoPartyPlan.toJson (plan : TwoPartyPlan Float) : Json :=
  .object [("alice", plan.alice.toJson), ("bob", plan.bob.toJson),
    ("classical_limit", .ofFloat plan.classicalLimit),
    ("tsirelson_bound", .ofFloat plan.tsirelsonBound)]

/-- The named settings of a qubit as JSON, sorted by name. -/
def AxisSet.toJson (axis : AxisSet Float) : Json :=
  .object (axis.toList.map fun (name, s) => (name, s.toJson))

/-- A hyperedge as JSON. -/
def Hyperedge.toJson (edge : Hyperedge Float) : Json :=
  .object [("participants", .ofList .ofWord edge.participants),
    ("basis", .ofList .string edge.basis), ("sign", .ofFloat edge.sign)]

/-- The axes of a hypergraph plan as JSON. -/
def AxesSection.toJson (s : AxesSection Float) : Json :=
  .object [("axes", .ofList AxisSet.toJson s.axes),
    ("target_violation", .ofFloat s.targetViolation)]

/-- A receipt as JSON, with the entries that it keeps. -/
def TupleReceipt.toJson (r : TupleReceipt) : Json :=
  .object ([("tuple_id", .string r.tupleId), ("payload_bytes", .ofWord r.payloadBytes)]
    ++ r.extra.toList)

/-- The settings of a run as JSON. -/
def BridgeSettings.toJson (s : BridgeSettings Float) : Json :=
  .object [("qrng_epoch", .ofWord s.epoch), ("qrng_seed_hex", .string s.seed),
    ("tuple_receipt", .ofOption TupleReceipt.toJson s.receipt),
    ("two_qubit", .ofOption TwoPartyPlan.toJson s.twoQubit),
    ("five_d", .ofOption AxesSection.toJson s.fiveD),
    ("hyperedges", .ofList Hyperedge.toJson s.hyperedges)]

end Nonlocal
