import Mathlib.Data.List.Nodup
import Nonlocal.Proofs.Engine.Partial
import Nonlocal.Report.Codec

/-!
Reports read back from their records.

A report whose numbers are finite is read back as it was. Its sections are put together field by
field; a section that is left out of the record is read as missing. The two objects of a projection
are looked up axis by axis, so that axes which are different and in their order come back as they
were (`Projection.decode_toJson`). Main statement: `reports_reread`.
-/

namespace Nonlocal

open Json Json.Document

/-! ## The numbers of a report -/

section Numbers

variable {K : Type}

/-- The numbers of a two-party outcome. -/
def TwoPartyOutcome.numbers (o : TwoPartyOutcome K) : List K :=
  [o.exact, o.sampled, o.classicalLimit, o.tsirelsonBound, o.confidence]
    ++ o.correlators ++ o.sampledTerms

/-- The numbers of a hypergraph outcome. -/
def HypergraphOutcome.numbers (o : HypergraphOutcome K) : List K :=
  [o.exact, o.sampled, o.target, o.confidence] ++ o.correlators ++ o.sampledTerms
    ++ o.projectedAxes.flatMap Vec3.toList

/-- The numbers of the outcomes of a correlator run, which do not include its options. -/
def SandboxReport.measured (r : SandboxReport K) : List K :=
  r.twoQubit.toList.flatMap TwoPartyOutcome.numbers
    ++ r.fiveD.toList.flatMap HypergraphOutcome.numbers

/-- The numbers of the report of a correlator run. -/
def SandboxReport.numbers (r : SandboxReport K) : List K :=
  r.depolarizing :: r.measured

/-- The numbers of a ciphertext summary. -/
def CiphertextSummary.numbers (c : CiphertextSummary K) : List K :=
  [c.digest, c.scale]

/-- The numbers of a privacy report. -/
def PrivacyMetrics.numbers (m : PrivacyMetrics K) : List K :=
  [m.entropyLeakBits, m.reyniDivergence, m.hockeyStickDelta, m.amplificationBound,
    m.ciphertextDigest]

/-- The numbers of a projection. -/
def Projection.numbers (p : Projection K) : List K :=
  p.axes.flatMap fun a => a.norm :: a.vector.toList

/-- The numbers of the report of a chaos run. -/
def EzphReport.numbers (r : EzphReport K) : List K :=
  [r.seedFraction, r.logisticScalar, r.chaosEnergy, r.quantumHash] ++ r.correlators ++ r.sampled
    ++ r.ciphertext.numbers ++ r.privacy.numbers ++ r.projection.numbers

end Numbers

/-! ## Outcomes -/

theorem TwoPartyOutcome.decode_toJson {o : TwoPartyOutcome Float} (finite : AllFinite o.numbers) :
    TwoPartyOutcome.decode (ofJson o.toJson) = .ok o := by
  simp only [numbers, allFinite_append, allFinite_cons, allFinite_nil, and_true] at finite
  obtain ⟨⟨⟨exact, sampled, classical, tsirelson, confidence⟩, values⟩, estimates⟩ := finite
  have sums := (Fields.reads_field "exact" (float_ofFloat exact)).andField "sampled"
    (float_ofFloat sampled) (by simp)
  have bounds := (sums.andField "classical_limit" (float_ofFloat classical) (by simp)).andField
    "tsirelson_bound" (float_ofFloat tsirelson) (by simp)
  have terms := ((bounds.andField "shots_per_term" (wordAs_ofWord "u64" o.shotsPerTerm)
    (by simp)).andField "correlators" (listOf_float values) (by simp)).andField "sampled_terms"
      (listOf_float estimates) (by simp)
  have entries := terms.andField "confidence_99" (float_ofFloat confidence) (by simp)
  exact (entries.map _).decode "TwoPartyOutcome"

theorem HypergraphOutcome.decode_toJson {o : HypergraphOutcome Float}
    (finite : AllFinite o.numbers) : HypergraphOutcome.decode (ofJson o.toJson) = .ok o := by
  simp only [numbers, allFinite_append, allFinite_cons, allFinite_nil, and_true,
    allFinite_flatMap] at finite
  obtain ⟨⟨⟨⟨exact, sampled, target, confidence⟩, values⟩, estimates⟩, directions⟩ := finite
  have axes : listOf Vec3.decode (ofJson (.ofList Vec3.toJson o.projectedAxes)) =
      .ok o.projectedAxes :=
    listOf_ofList fun v inside => Vec3.decode_toJson (directions v inside)
  have sums := (Fields.reads_field "exact" (float_ofFloat exact)).andField "sampled"
    (float_ofFloat sampled) (by simp)
  have register := ((sums.andField "target" (float_ofFloat target) (by simp)).andField "dims"
    (wordAs_ofWord "usize" o.dims) (by simp)).andField "projected_axes" axes (by simp)
  have terms := ((register.andField "shots_per_term" (wordAs_ofWord "u64" o.shotsPerTerm)
    (by simp)).andField "correlators" (listOf_float values) (by simp)).andField "sampled_terms"
      (listOf_float estimates) (by simp)
  have entries := terms.andField "confidence_99" (float_ofFloat confidence) (by simp)
  exact (entries.map _).decode "HypergraphOutcome"

/-! ## Correlator runs -/

/-- A section is read from its entry, and as missing when the entry was left out. -/
theorem reads_optionalEntry {α : Type} {decode : Decoder α} {write : α → Json} (name : String)
    {part : Option α}
    (reads : ∀ x ∈ part, ofJson (write x) ≠ .null ∧ decode (ofJson (write x)) = .ok x) :
    (Fields.optionalField name decode).Reads (optionalEntry name write part) part := by
  cases part with
  | none => exact ⟨none, .nil _, rfl⟩
  | some x =>
    obtain ⟨present, same⟩ := reads x rfl
    have given : optional decode (ofJson (write x)) = .ok (some x) := by
      rw [optional_of_ne_null present, same]
      rfl
    exact ⟨some (some x), .cons (Fields.takeOnce_fresh given) (.nil _), rfl⟩

namespace SandboxReport

variable {r : SandboxReport Float}

/-- The fields of a report that stand in front of its noise. -/
def outcomeFields :=
  Fields.optionalField "two_qubit" TwoPartyOutcome.decode
    |>.and (.optionalField "five_d" HypergraphOutcome.decode)
    |>.and (.field "shots" signedWord)

theorem outcomeFields_ignores : outcomeFields.Ignores "depolarizing" := by
  simp [outcomeFields]

theorem reads_outcomes (finite : AllFinite r.measured) :
    outcomeFields.Reads
      (optionalEntry "two_qubit" TwoPartyOutcome.toJson r.twoQubit
        ++ optionalEntry "five_d" HypergraphOutcome.toJson r.fiveD
        ++ [("shots", .integer r.shots.toInt)]) ((r.twoQubit, r.fiveD), r.shots) := by
  simp only [measured, allFinite_append, allFinite_flatMap, Option.mem_toList] at finite
  obtain ⟨pair, many⟩ := finite
  have twoQubit : (Fields.optionalField "two_qubit" TwoPartyOutcome.decode).Reads
      (optionalEntry "two_qubit" TwoPartyOutcome.toJson r.twoQubit) r.twoQubit :=
    reads_optionalEntry "two_qubit" fun o inside =>
      ⟨ofJson_object_ne_null _, TwoPartyOutcome.decode_toJson (pair o inside)⟩
  have fiveD : (Fields.optionalField "five_d" HypergraphOutcome.decode).Reads
      (optionalEntry "five_d" HypergraphOutcome.toJson r.fiveD) r.fiveD :=
    reads_optionalEntry "five_d" fun o inside =>
      ⟨ofJson_object_ne_null _, HypergraphOutcome.decode_toJson (many o inside)⟩
  have apart : ∀ e ∈ optionalEntry "five_d" HypergraphOutcome.toJson r.fiveD,
      (Fields.optionalField "two_qubit" TwoPartyOutcome.decode).Ignores e.1 := by
    cases r.fiveD <;> simp [optionalEntry]
  exact (twoQubit.and fiveD apart).andField "shots" (signedWord_integer r.shots) (by simp)

theorem decode_toJson (finite : AllFinite r.numbers) : decode (ofJson r.toJson) = .ok r := by
  obtain ⟨noise, measured⟩ := List.forall_mem_cons.mp finite
  have entries := (reads_outcomes measured).andField "depolarizing" (float_ofFloat noise)
    outcomeFields_ignores
  rw [List.append_assoc] at entries
  exact (entries.map _).decode "SandboxReport"

end SandboxReport

/-! ## Projections -/

namespace Projection

theorem axisKey_name (axis : Axis) : axisKey (.pure axis.name) = .ok axis := by
  cases axis <;> rfl

section Lookup

variable {K α : Type} {axes : List (AxisProjection K)}

theorem find?_eq_some_iff_of_nodup (distinct : (axes.map AxisProjection.axis).Nodup) {axis : Axis}
    {a : AxisProjection K} :
    axes.find? (fun a => a.axis = axis) = some a ↔ a ∈ axes ∧ a.axis = axis := by
  constructor
  · intro found
    exact ⟨List.mem_of_find?_eq_some found, by simpa using List.find?_some found⟩
  · rintro ⟨inside, rfl⟩
    have some_member : (axes.find? fun b => b.axis = a.axis).isSome :=
      List.find?_isSome.mpr ⟨a, inside, by simp⟩
    obtain ⟨b, found⟩ := Option.isSome_iff_exists.mp some_member
    have same : b.axis = a.axis := by simpa using List.find?_some found
    rw [found, List.inj_on_of_nodup_map distinct (List.mem_of_find?_eq_some found) inside same]

theorem lookup_map_axis (g : AxisProjection K → α) (axis : Axis) (axes : List (AxisProjection K)) :
    (axes.map fun a => (a.axis, g a)).lookup axis =
      (axes.find? fun a => a.axis = axis).map g := by
  induction axes with
  | nil => rfl
  | cons a rest ih =>
    rw [List.map_cons, List.lookup_cons, ih, List.find?_cons]
    by_cases same : a.axis = axis
    · simp [same]
    · have other : (axis == a.axis) = false := beq_false_of_ne (Ne.symm same)
      simp [same, other]

theorem lastOf?_map (distinct : (axes.map AxisProjection.axis).Nodup) (g : AxisProjection K → α)
    (axis : Axis) :
    lastOf? axis (axes.map fun a => (a.axis, g a)) = (get? ⟨axes⟩ axis).map g := by
  have reversed : (axes.reverse.map AxisProjection.axis).Nodup := by
    rwa [List.map_reverse, List.nodup_reverse]
  have same : axes.reverse.find? (fun a => a.axis = axis) = axes.find? fun a => a.axis = axis := by
    ext a
    rw [find?_eq_some_iff_of_nodup distinct,
      find?_eq_some_iff_of_nodup reversed, List.mem_reverse]
  rw [lastOf?, ← List.map_reverse, lookup_map_axis, same]
  rfl

/-- Axes that are different and in their order are found again by going through all axes. -/
theorem filterMap_get? {order : List Axis} (distinct : order.Nodup)
    (ordered : (axes.map AxisProjection.axis).Sublist order) :
    order.filterMap (get? ⟨axes⟩) = axes := by
  induction order generalizing axes with
  | nil =>
    obtain rfl := List.map_eq_nil_iff.mp (List.sublist_nil.mp ordered)
    rfl
  | cons axis rest ih =>
    obtain ⟨fresh, others⟩ := List.nodup_cons.mp distinct
    cases axes with
    | nil => exact List.filterMap_eq_nil_iff.mpr fun _ _ => rfl
    | cons a later =>
      by_cases first : a.axis = axis
      · -- The axes behind the first one are looked up behind it.
        have behind : (later.map AxisProjection.axis).Sublist rest := by
          rw [List.map_cons, first] at ordered
          exact List.cons_sublist_cons.mp ordered
        have found : get? ⟨a :: later⟩ axis = some a := by simp [get?, first]
        have apart (y) (inside : y ∈ rest) : get? ⟨a :: later⟩ y = get? ⟨later⟩ y := by
          have other : a.axis ≠ y := fun same => fresh (first ▸ same ▸ inside)
          simp [get?, other]
        rw [List.filterMap_cons_some found, List.filterMap_congr apart, ih others behind]
      · have behind : ((a :: later).map AxisProjection.axis).Sublist rest := by
          rw [List.map_cons] at ordered
          exact ordered.of_cons_of_ne first
        have missing : get? ⟨a :: later⟩ axis = none := by
          refine List.find?_eq_none.mpr fun b inside same => fresh ?_
          rw [← of_decide_eq_true same]
          exact behind.subset (List.mem_map_of_mem inside)
        rw [List.filterMap_cons_none missing, ih others behind]

end Lookup

theorem assemble_eq {vectors : List (Axis × Vec3 Float)} {norms : List (Axis × Float)}
    {p : Projection Float}
    (vector : ∀ axis, lastOf? axis vectors = (p.get? axis).map AxisProjection.vector)
    (norm : ∀ axis, lastOf? axis norms = (p.get? axis).map AxisProjection.norm)
    (order : List Axis) :
    assemble vectors norms order = .ok (order.filterMap p.get?) := by
  induction order with
  | nil => rfl
  | cons axis rest ih =>
    rw [assemble, vector, norm, ih]
    cases found : p.get? axis with
    | none => rw [List.filterMap_cons_none found]; rfl
    | some a =>
      have same : a.axis = axis := by simpa using List.find?_some found
      rw [List.filterMap_cons_some found, ← same]
      rfl

/-- One of the two objects of a projection, with a part of each axis under its name. -/
theorem mapOf_axes {α : Type} {decode : Decoder α} {write : α → Json}
    (part : AxisProjection Float → α) {axes : List (AxisProjection Float)}
    (reads : ∀ a ∈ axes, decode (ofJson (write (part a))) = .ok (part a)) :
    mapOf axisKey decode (ofJson (.object (axes.map fun a => (a.axis.name, write (part a))))) =
      .ok (axes.map fun a => (a.axis, part a)) := by
  have read : mapOf axisKey decode (ofJson (.object
      ((axes.map fun a => (a.axis, part a)).map fun e => (e.1.name, write e.2)))) =
      .ok (axes.map fun a => (a.axis, part a)) :=
    mapOf_object (List.forall_mem_map.mpr fun a inside => ⟨axisKey_name a.axis, reads a inside⟩)
  rwa [List.map_map] at read

theorem decode_toJson {p : Projection Float} (finite : AllFinite p.numbers)
    (ordered : (p.axes.map AxisProjection.axis).Sublist Axis.all) :
    decode (ofJson p.toJson) = .ok p := by
  simp only [numbers, allFinite_flatMap, allFinite_cons] at finite
  have distinct : Axis.all.Nodup := by decide
  have vectors := mapOf_axes AxisProjection.vector fun a inside =>
    Vec3.decode_toJson (finite a inside).2
  have norms := mapOf_axes AxisProjection.norm fun a inside => float_ofFloat (finite a inside).1
  have entries := ((Fields.reads_field "axes" vectors).andField "norms" norms (by simp)).decode
    "ProjectionRecord"
  have assembled := assemble_eq (p := p) (lastOf?_map (ordered.nodup distinct) _)
    (lastOf?_map (ordered.nodup distinct) _) Axis.all
  rw [filterMap_get? distinct ordered] at assembled
  exact bind_eq_ok.mpr ⟨_, entries, bind_eq_ok.mpr ⟨p.axes, assembled, rfl⟩⟩

end Projection

/-! ## Chaos runs -/

theorem CiphertextSummary.decode_toJson {c : CiphertextSummary Float}
    (finite : AllFinite c.numbers) : CiphertextSummary.decode (ofJson c.toJson) = .ok c := by
  simp only [numbers, allFinite_cons, allFinite_nil, and_true] at finite
  obtain ⟨digest, scale⟩ := finite
  have entries := ((Fields.reads_field "digest" (float_ofFloat digest)).andField "slots"
    (wordAs_ofWord "usize" c.slots) (by simp)).andField "scale" (float_ofFloat scale) (by simp)
  exact (entries.map _).decode "CiphertextSummary"

theorem PrivacyMetrics.decode_toJson {m : PrivacyMetrics Float} (finite : AllFinite m.numbers) :
    PrivacyMetrics.decode (ofJson m.toJson) = .ok m := by
  simp only [numbers, allFinite_cons, allFinite_nil, and_true] at finite
  obtain ⟨leak, divergence, stick, bound, digest⟩ := finite
  have satisfied : truth (ofJson (.boolean m.satisfied)) = .ok m.satisfied := rfl
  have metrics := ((Fields.reads_field "entropy_leak_bits" (float_ofFloat leak)).andField
    "reyni_divergence" (float_ofFloat divergence) (by simp)).andField "hockey_stick_delta"
      (float_ofFloat stick) (by simp)
  have entries := ((metrics.andField "amplification_bound" (float_ofFloat bound)
    (by simp)).andField "ciphertext_digest" (float_ofFloat digest) (by simp)).andField "satisfied"
      satisfied (by simp)
  exact (entries.map _).decode "PrivacyMetrics"

theorem EzphReport.decode_toJson {r : EzphReport Float} (finite : AllFinite r.numbers)
    (ordered : (r.projection.axes.map AxisProjection.axis).Sublist Axis.all) :
    decode (ofJson r.toJson) = .ok r := by
  simp only [numbers, allFinite_append, allFinite_cons, allFinite_nil, and_true] at finite
  obtain ⟨⟨⟨⟨⟨⟨fraction, logistic, energy, fingerprint⟩, values⟩, estimates⟩, summary⟩, metrics⟩,
    axes⟩ := finite
  have seed : text (ofJson (.string r.seed)) = .ok r.seed := rfl
  have start := ((Fields.reads_field "seed" seed).andField "seed_fraction"
    (float_ofFloat fraction) (by simp)).andField "logistic_scalar" (float_ofFloat logistic)
      (by simp)
  have terms := (((start.andField "chaos_energy" (float_ofFloat energy) (by simp)).andField
    "correlators" (listOf_float values) (by simp)).andField "sampled" (listOf_float estimates)
      (by simp)).andField "shots_per_term" (wordAs_ofWord "u64" r.shotsPerTerm) (by simp)
  have parts := ((terms.andField "ciphertext" (CiphertextSummary.decode_toJson summary)
    (by simp)).andField "privacy" (PrivacyMetrics.decode_toJson metrics) (by simp)).andField
      "projection" (Projection.decode_toJson axes ordered) (by simp)
  have entries := parts.andField "quantum_hash" (float_ofFloat fingerprint) (by simp)
  exact (entries.map _).decode "EzphReport"

/-! ## Reports of both kinds -/

/-- Reports of finite numbers are read back as they were recorded: those of correlator runs with
whatever sections they have, and those of chaos runs if the axes of their projection are different
and in their order. -/
theorem reports_reread :
    (∀ r : SandboxReport Float, AllFinite r.numbers →
      SandboxReport.decode (ofJson r.toJson) = .ok r) ∧
    ∀ r : EzphReport Float, AllFinite r.numbers →
      (r.projection.axes.map AxisProjection.axis).Sublist Axis.all →
      EzphReport.decode (ofJson r.toJson) = .ok r :=
  ⟨fun _ finite => SandboxReport.decode_toJson finite,
    fun _ finite ordered => EzphReport.decode_toJson finite ordered⟩

/-- A report without the section of the two parties, and one whose projection lacks its second axis,
at numbers from the ends of their ranges. -/
theorem reports_reread_partial :
    let outcome : HypergraphOutcome Float :=
      { exact := -0.0, sampled := 1, target := 1.7976931348623157e308, dims := 1,
        projectedAxes := [⟨0, -1, 5e-324⟩], shotsPerTerm := 0xFFFFFFFFFFFFFFFF,
        correlators := [], sampledTerms := [0.1], confidence := 0 }
    let sandbox : SandboxReport Float :=
      { twoQubit := none, fiveD := some outcome, shots := Int64.minValue, depolarizing := -7 }
    let privacy : PrivacyMetrics Float :=
      { entropyLeakBits := 1e-300, reyniDivergence := 42, hockeyStickDelta := 0,
        amplificationBound := 1e-308, ciphertextDigest := 2, satisfied := false }
    let ezph : EzphReport Float :=
      { seed := "\"deadbeef\\", seedFraction := 0.5, logisticScalar := 0.25, chaosEnergy := 1e300,
        correlators := [0, 0, 1], sampled := [], shotsPerTerm := 1,
        ciphertext := { digest := 2, slots := 4, scale := 1099511627776 }, privacy,
        projection := ⟨[⟨.spatial, ⟨1, 2, 2⟩, 3⟩, ⟨.entropy, ⟨0, 0, -4⟩, 4⟩]⟩,
        quantumHash := 1 }
    (AllFinite sandbox.numbers ∧ SandboxReport.decode (ofJson sandbox.toJson) = .ok sandbox) ∧
      AllFinite ezph.numbers ∧
      (ezph.projection.axes.map AxisProjection.axis).Sublist Axis.all ∧
      EzphReport.decode (ofJson ezph.toJson) = .ok ezph := by
  intro outcome sandbox privacy ezph
  have sandboxFinite : AllFinite sandbox.numbers := by decide +kernel
  have ezphFinite : AllFinite ezph.numbers := by decide +kernel
  have ordered : (ezph.projection.axes.map AxisProjection.axis).Sublist Axis.all := by decide
  exact ⟨⟨sandboxFinite, reports_reread.1 sandbox sandboxFinite⟩, ezphFinite, ordered,
    reports_reread.2 ezph ezphFinite ordered⟩

end Nonlocal
