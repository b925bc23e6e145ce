import Nonlocal.Proofs.Binary64.Magnitude
import Nonlocal.Proofs.Json.Partial
import Nonlocal.Proofs.Run.Finiteness
import Nonlocal.Proofs.Run.Threading

/-!
Records with a null in them.

A number that is not finite is recorded as null, and a null is not read back as a number. The record
of a correlator run holds no null exactly if all numbers of its report are finite
(`SandboxReport.holdsNull_toJson`). What a run measures is, but it repeats the noise of its options
as it was given, before clamping. So noise that is infinite or undefined leads to a run that
succeeds and to a record that cannot be read (`Run.sandbox_record`).
-/

namespace Nonlocal

open Json Json.Document

/-! ## Nulls -/

namespace Json

mutual

/-- Is there a null anywhere inside of the value? -/
def holdsNull : Json → Bool
  | .null => true
  | .array items => itemsHoldNull items
  | .object entries => entriesHoldNull entries
  | _ => false

/-- Is there a null in one of the items? -/
def itemsHoldNull : List Json → Bool
  | [] => false
  | v :: rest => holdsNull v || itemsHoldNull rest

/-- Is there a null in one of the entries? -/
def entriesHoldNull : List (String × Json) → Bool
  | [] => false
  | (_, v) :: rest => holdsNull v || entriesHoldNull rest

end

@[simp] theorem holdsNull_ofFloat {x : Float} :
    (ofFloat x).holdsNull = false ↔ Scalar.isFinite x = true := by
  change (if x.isFinite = true then Json.decimal x else .null).holdsNull = false ↔
    x.isFinite = true
  cases x.isFinite with
  | false => exact iff_of_false (Bool.noConfusion ·) (Bool.noConfusion ·)
  | true => exact iff_of_true rfl rfl

@[simp] theorem holdsNull_ofWord (n : UInt64) : (ofWord n).holdsNull = false :=
  rfl

theorem holdsNull_ofList {α : Type} {write : α → Json} {xs : List α} :
    (ofList write xs).holdsNull = false ↔ ∀ x ∈ xs, (write x).holdsNull = false := by
  induction xs with
  | nil => exact ⟨fun _ => List.forall_mem_nil _, fun _ => rfl⟩
  | cons x rest ih =>
    rw [List.forall_mem_cons, ← ih]
    exact Bool.or_eq_false_iff

@[simp] theorem holdsNull_floats {xs : List Float} :
    (ofList ofFloat xs).holdsNull = false ↔ AllFinite xs := by
  rw [holdsNull_ofList]
  exact forall₂_congr fun x _ => holdsNull_ofFloat

@[simp] theorem holdsNull_object {entries : List (String × Json)} :
    (object entries).holdsNull = false ↔ ∀ e ∈ entries, e.2.holdsNull = false := by
  induction entries with
  | nil => exact ⟨fun _ => List.forall_mem_nil _, fun _ => rfl⟩
  | cons e rest ih =>
    rw [List.forall_mem_cons, ← ih]
    exact Bool.or_eq_false_iff

end Json

theorem TwoPartyOutcome.holdsNull_toJson (o : TwoPartyOutcome Float) :
    o.toJson.holdsNull = false ↔ AllFinite o.numbers := by
  simp only [toJson, holdsNull_object, List.forall_mem_cons, holdsNull_ofFloat, holdsNull_ofWord,
    holdsNull_floats, numbers, allFinite_append, allFinite_cons, allFinite_nil]
  tauto

theorem HypergraphOutcome.holdsNull_toJson (o : HypergraphOutcome Float) :
    o.toJson.holdsNull = false ↔ AllFinite o.numbers := by
  have axes : (Json.ofList Vec3.toJson o.projectedAxes).holdsNull = false ↔
      ∀ v ∈ o.projectedAxes, AllFinite v.toList := by
    rw [holdsNull_ofList]
    exact forall₂_congr fun v _ => holdsNull_floats
  simp only [toJson, holdsNull_object, List.forall_mem_cons, holdsNull_ofFloat, holdsNull_ofWord,
    holdsNull_floats, axes, numbers, allFinite_append, allFinite_cons, allFinite_nil,
    allFinite_flatMap]
  tauto

theorem holdsNull_optionalEntry {α : Type} {write : α → Json} {numbers : α → List Float}
    (same : ∀ x, (write x).holdsNull = false ↔ AllFinite (numbers x)) (name : String)
    (part : Option α) :
    (∀ e ∈ optionalEntry name write part, e.2.holdsNull = false) ↔
      AllFinite (part.toList.flatMap numbers) := by
  cases part with
  | none => exact ⟨fun _ => List.forall_mem_nil _, fun _ => List.forall_mem_nil _⟩
  | some x =>
    rw [optionalEntry, List.forall_mem_singleton, same, Option.toList_some, List.flatMap_singleton]

namespace SandboxReport

variable {r : SandboxReport Float}

theorem holdsNull_toJson (r : SandboxReport Float) :
    r.toJson.holdsNull = false ↔ AllFinite r.numbers := by
  have pair := holdsNull_optionalEntry TwoPartyOutcome.holdsNull_toJson "two_qubit" r.twoQubit
  have many := holdsNull_optionalEntry HypergraphOutcome.holdsNull_toJson "five_d" r.fiveD
  have shots : (Json.integer r.shots.toInt).holdsNull = false := rfl
  simp only [toJson, holdsNull_object, List.forall_mem_append, List.forall_mem_cons, pair, many,
    shots, holdsNull_ofFloat, numbers, measured, allFinite_cons, allFinite_append]
  tauto

theorem not_allFinite_numbers (noise : r.depolarizing.isFinite = false) :
    ¬AllFinite r.numbers := by
  intro finite
  have number : r.depolarizing.isFinite = true := finite r.depolarizing List.mem_cons_self
  exact Bool.false_ne_true (noise.symm.trans number)

theorem holdsNull_of_not_finite (noise : r.depolarizing.isFinite = false) :
    r.toJson.holdsNull = true := by
  rw [← Bool.not_eq_false, holdsNull_toJson]
  exact not_allFinite_numbers noise

/-- The outcomes of a record can be read and its noise cannot, if that is not a number. -/
theorem decode_of_not_finite (finite : AllFinite r.measured)
    (noise : r.depolarizing.isFinite = false) :
    decode (ofJson r.toJson) = .error (.wrongType .null "f64") := by
  have null : Json.ofFloat r.depolarizing = .null := if_neg (Bool.not_eq_true _ ▸ noise)
  have refused : (Fields.field "depolarizing" float).Refuses
      [("depolarizing", Json.ofFloat r.depolarizing)] (.wrongType .null "f64") := by
    refine ⟨[], _, _, [], none, rfl, .nil _, ?_⟩
    rw [null]
    rfl
  have entries := Fields.Refuses.right (reads_outcomes finite) refused
    (List.forall_mem_singleton.mpr outcomeFields_ignores)
  rw [List.append_assoc] at entries
  exact Fields.Gives.decode (Fields.Gives.map (r := .error _) entries _) "SandboxReport"

/-- A record that is read back has a number for its noise, whatever else is in it. -/
theorem isFinite_of_decode_toJson {r' : SandboxReport Float}
    (read : decode (ofJson r.toJson) = .ok r') : r.depolarizing.isFinite = true := by
  by_contra infinite
  have null : Json.ofFloat r.depolarizing = .null := if_neg infinite
  have inside : ("depolarizing", Json.ofFloat r.depolarizing) ∈
      optionalEntry "two_qubit" TwoPartyOutcome.toJson r.twoQubit
        ++ optionalEntry "five_d" HypergraphOutcome.toJson r.fiveD
        ++ [("shots", Json.integer r.shots.toInt), ("depolarizing", .ofFloat r.depolarizing)] := by
    simp
  obtain ⟨t, taken, -⟩ := bind_eq_ok.mp read
  obtain ⟨⟨s, found⟩, refused⟩ := Fields.not_refused_of_takeEntries taken _ inside
  rw [null] at refused
  have left := Fields.take_and_of_ignores (g := .field "depolarizing" float) outcomeFields_ignores s
    found .null
  cases found with
  | none => exact refused (.wrongType .null "f64") left
  | some x => exact refused (.fieldRepeated "depolarizing") left

end SandboxReport

/-! ## Runs -/

/-- The report measures finite numbers and repeats its options. If the noise in the options is a
number, the record of the report holds no null and is read back as the report; if not, the record
holds a null in its place and is refused. -/
structure SandboxReport.IsRecorded (options : RunOptions Float) (report : SandboxReport Float) :
    Prop where
  measured : AllFinite report.measured
  shots : report.shots = options.shots
  noise : report.depolarizing = options.depolarizing
  read : options.depolarizing.isFinite = true → report.toJson.holdsNull = false ∧
    SandboxReport.decode (ofJson report.toJson) = .ok report
  refused : options.depolarizing.isFinite = false → report.toJson.holdsNull = true ∧
    SandboxReport.decode (ofJson report.toJson) = .error (.wrongType .null "f64")

namespace Run

open Binary64 (Between Functions between_into)

theorem isRecorded_of_run {f : Functions} (bounded : f.IsBounded)
    {settings : BridgeSettings Float} {options : RunOptions Float} {g : Generator}
    {report : SandboxReport Float}
    (ran : ((@sandbox Float f.numerics settings options).run g).1 = .ok report) :
    report.IsRecorded options := by
  have measured : AllFinite report.measured ∧ report.shots = options.shots ∧
      report.depolarizing = options.depolarizing :=
    @allFinite_measured_of_run Float f.numerics bounded.hasMagnitudes f.hasProbabilities options g
      settings report ran
  obtain ⟨finite, shots, noise⟩ := measured
  refine ⟨finite, shots, noise, fun number => ?_, fun undefined => ?_⟩
  · have all : AllFinite report.numbers := List.forall_mem_cons.mpr ⟨noise ▸ number, finite⟩
    exact ⟨(SandboxReport.holdsNull_toJson report).mpr all, SandboxReport.decode_toJson all⟩
  · have lost : report.depolarizing.isFinite = false := noise ▸ undefined
    exact ⟨SandboxReport.holdsNull_of_not_finite lost,
      SandboxReport.decode_of_not_finite finite lost⟩

/-- What a correlator run measures is finite, and its report repeats the options, so that the record
is read back exactly if the noise in the options is a number. The functions that binary64 does not
determine are only assumed to stay within their range; those that a program is run with are a case
of it. -/
theorem sandbox_record (settings : BridgeSettings Float) (options : RunOptions Float)
    (g : Generator) (report : SandboxReport Float) :
    (∀ f : Functions, f.IsBounded →
      ((@sandbox Float f.numerics settings options).run g).1 = .ok report →
        report.IsRecorded options) ∧
    (Functions.standard.IsBounded →
      ((sandbox settings options).run g).1 = .ok report → report.IsRecorded options) := by
  refine ⟨fun f bounded => isRecorded_of_run bounded, fun bounded ran => ?_⟩
  rw [← Functions.numerics_standard] at ran
  exact isRecorded_of_run bounded ran

/-- A Bell pair that is measured along one axis. -/
def alignedText : String :=
  "\x7b\"qrng_seed_hex\":\"5d\",\"two_qubit\":\x7b\"alice\":\x7b\"angles\":[0,0]\x7d," ++
    "\"bob\":\x7b\"angles\":[0,0]\x7d,\"classical_limit\":2,\"tsirelson_bound\":3\x7d\x7d"

theorem exists_plan_alignedText :
    ∃ settings plan, BridgeSettings.ofText alignedText = .ok settings ∧
      settings.plans = .ok [.twoParty plan] := by
  have accepted : ((BridgeSettings.ofText alignedText).toOption.any fun s =>
      s.twoQubit.isSome && s.fiveD.isNone && s.hyperedges.isEmpty) = true := by decide +kernel
  cases made : BridgeSettings.ofText alignedText with
  | error e =>
    rw [made] at accepted
    cases accepted
  | ok s =>
    rw [made] at accepted
    simp only [Except.toOption, Option.any_some, Bool.and_eq_true, Option.isNone_iff_eq_none,
      List.isEmpty_iff] at accepted
    obtain ⟨⟨present, absent⟩, empty⟩ := accepted
    obtain ⟨plan, present⟩ := Option.isSome_iff_exists.mp present
    obtain ⟨-, valid⟩ := BridgeSettings.ofText_eq_ok_iff.mp made
    obtain ⟨-, plans, found⟩ := BridgeSettings.validate_eq_ok_iff.mp valid
    obtain ⟨two, many, foundTwo, foundMany, rfl⟩ := BridgeSettings.plans_eq_ok_iff.mp found
    rw [BridgeSettings.hypergraphPlans, absent, empty] at foundMany
    cases foundMany
    rw [List.append_nil, BridgeSettings.twoPartyPlans_eq_ok foundTwo, present] at found
    exact ⟨s, plan, rfl, found⟩

/-- Functions that are right at the angle zero and at the confidence level of a run, with draws that
are counts. -/
def alignedFunctions : Functions where
  sin := Clamp.expectation
  cos := fun _ => 1
  normalQuantile := fun _ => 2.5758293035489
  binomial := Functions.counting.binomial

theorem alignedFunctions_counts : alignedFunctions.Counts :=
  Functions.counts_counting

theorem alignedFunctions_isBounded : alignedFunctions.IsBounded where
  sin _ := between_into ⟨by decide +kernel, by decide +kernel, by decide +kernel⟩
    ⟨by decide +kernel, by decide +kernel, by decide +kernel⟩
    ⟨by decide +kernel, by decide +kernel, by decide +kernel⟩ _
  cos _ := show Between (-1) 1 1 from
    ⟨by decide +kernel, by decide +kernel, by decide +kernel⟩
  normalQuantile _ _ := show Between 0 16 2.5758293035489 from
    ⟨by decide +kernel, by decide +kernel, by decide +kernel⟩

/-- With one part of noise in ten the record of the Bell pair is read back. -/
theorem sandbox_record_aligned :
    let options : RunOptions Float := { shots := 4096, depolarizing := 1 / 10 }
    alignedFunctions.IsBounded ∧
      ∃ settings report g', BridgeSettings.ofText alignedText = .ok settings ∧
        (@sandbox Float alignedFunctions.numerics settings options).run
          (.ofSeed Sampler.correlatorSeed) = (.ok report, g') ∧
        AllFinite report.measured ∧ report.toJson.holdsNull = false ∧
        SandboxReport.decode (ofJson report.toJson) = .ok report := by
  intro options
  obtain ⟨settings, plan, made, found⟩ := exists_plan_alignedText
  have found' : @BridgeSettings.plans Float alignedFunctions.numerics.toScalar settings =
    .ok [.twoParty plan] := found
  obtain ⟨report, g', run, -⟩ := @exists_run_sandbox Float alignedFunctions.numerics
    alignedFunctions.hasProbabilities options alignedFunctions_counts.hasCounts settings _ found'
    (List.cons_ne_nil _ _) (.ofSeed Sampler.correlatorSeed)
  have recorded := (sandbox_record settings options _ report).1 alignedFunctions
    alignedFunctions_isBounded (congrArg Prod.fst run)
  exact ⟨alignedFunctions_isBounded, settings, report, g', made, run, recorded.measured,
    recorded.read (by decide +kernel)⟩

/-- If the noise is undefined the run of the Bell pair succeeds all the same, and its record holds a
null and is refused. -/
theorem sandbox_record_undefined :
    let _ : Numerics Float := Binary64.counting
    let options : RunOptions Float := { shots := 4096, depolarizing := 0 / 0 }
    ∃ settings report g', BridgeSettings.ofText alignedText = .ok settings ∧
      (sandbox settings options).run (.ofSeed Sampler.correlatorSeed) = (.ok report, g') ∧
      ¬AllFinite report.numbers ∧ report.toJson.holdsNull = true ∧
      ¬∃ r, SandboxReport.decode (ofJson report.toJson) = .ok r := by
  intro counting options
  have counts : HasCounts Float := Binary64.hasCounts_counting
  have probabilities : HasProbabilities Float := Functions.counting.hasProbabilities
  obtain ⟨settings, plan, made, found⟩ := exists_plan_alignedText
  obtain ⟨c, n, yields⟩ := exists_yields_twoParty plan options
  have undefined : options.depolarizing.isFinite = false := by decide +kernel
  let outcome := twoPartyOutcome plan
    (measured c n options.shots (.ofSeed Sampler.correlatorSeed)).1
  let report := (emptyReport options).withTwoQubit outcome
  have noise : report.depolarizing.isFinite = false := undefined
  refine ⟨settings, report, _, made, run_sandbox_twoParty found (yields.run _),
    SandboxReport.not_allFinite_numbers noise, SandboxReport.holdsNull_of_not_finite noise, ?_⟩
  rintro ⟨r, read⟩
  exact Bool.false_ne_true (noise.symm.trans (SandboxReport.isFinite_of_decode_toJson read))

end Run

end Nonlocal
