import Nonlocal.Proofs.Binary64.Equality
import Nonlocal.Proofs.Json.Values
import Nonlocal.Proofs.Settings.Plans

/-!
Settings read back from their own record.

Settings that were accepted hold nothing but finite numbers, and a receipt of theirs holds under its
other entries no name of a known field and no value that is nested too deeply
(`BridgeSettings.IsRecordable`). What is recordable is read back as it was, part by part, so that
accepted settings survive their own record (`BridgeSettings.accepted_reread`).
-/

namespace Nonlocal

open Json Json.Document

/-! ## Maps -/

/-- The entries of a map make it up again. -/
theorem foldl_insert_toList {α : Type} (m : Std.ExtTreeMap String α) :
    m.toList.foldl (fun acc e => acc.insert e.1 e.2) ∅ = m := by
  rw [← Std.ExtTreeMap.insertMany_list_eq_foldl]
  apply Std.ExtTreeMap.ext_getElem?
  intro key
  cases found : m[key]? with
  | some x =>
    have inside := Std.ExtTreeMap.mem_toList_iff_getElem?_eq_some.mpr found
    exact Std.ExtTreeMap.getElem?_insertMany_list_of_mem Std.ReflCmp.compare_self
      Std.ExtTreeMap.distinct_keys_toList inside
  | none =>
    have missing : (m.toList.map Prod.fst).contains key = false := by
      rw [Bool.eq_false_iff, Ne, List.contains_iff_mem, List.mem_map]
      rintro ⟨e, inside, rfl⟩
      cases found.symm.trans (Std.ExtTreeMap.mem_toList_iff_getElem?_eq_some.mp inside)
    rw [Std.ExtTreeMap.getElem?_insertMany_list_of_contains_eq_false missing]
    rfl

/-! ## Plans -/

theorem Setting.decode_toJson {s : Setting Float} (finite : s.isFinite = true) :
    Setting.decode (ofJson s.toJson) = .ok s := by
  obtain ⟨theta, phi⟩ := Bool.and_eq_true_iff.mp finite
  have entries := (Fields.reads_field "theta" (float_ofFloat theta)).andField "phi"
    (float_ofFloat phi) (by simp)
  exact (entries.map _).decode "MeasurementSetting"

theorem PartySettings.decode_toJson {p : PartySettings Float} (first : p.first.isFinite = true)
    (second : p.second.isFinite = true) : PartySettings.decode (ofJson p.toJson) = .ok p := by
  have entries := Fields.reads_field "angles" (floatPair_ofList first second)
  exact (entries.map _).decode "PartySettings"

theorem TwoPartyPlan.decode_toJson {plan : TwoPartyPlan Float} (finite : plan.isFinite = true) :
    TwoPartyPlan.decode (ofJson plan.toJson) = .ok plan := by
  simp only [TwoPartyPlan.isFinite, List.all_cons, List.all_nil, Bool.and_true,
    Bool.and_eq_true] at finite
  obtain ⟨a, a', b, b', classical, tsirelson⟩ := finite
  have parties := (Fields.reads_field "alice" (PartySettings.decode_toJson a a')).andField "bob"
    (PartySettings.decode_toJson b b') (by simp)
  have bounds := (parties.andField "classical_limit" (float_ofFloat classical) (by simp)).andField
    "tsirelson_bound" (float_ofFloat tsirelson) (by simp)
  exact (bounds.map _).decode "TwoPartyPlan"

theorem AxisSet.decode_toJson {axis : AxisSet Float}
    (finite : ∀ (name : String) s, axis[name]? = some s → s.isFinite = true) :
    AxisSet.decode (ofJson axis.toJson) = .ok axis := by
  have reads (e) (inside : e ∈ axis.toList) : Leaf.value (.pure (id e.1)) = .ok e.1 ∧
      Setting.decode (ofJson e.2.toJson) = .ok e.2 :=
    ⟨rfl, Setting.decode_toJson
      (finite e.1 e.2 (Std.ExtTreeMap.mem_toList_iff_getElem?_eq_some.mp inside))⟩
  have entries : mapOf Leaf.value Setting.decode (ofJson axis.toJson) = .ok axis.toList :=
    mapOf_object reads
  rw [AxisSet.decode, entries]
  exact congrArg Except.ok (foldl_insert_toList axis)

theorem Hyperedge.decode_toJson {edge : Hyperedge Float} (finite : edge.sign.isFinite = true) :
    Hyperedge.decode (ofJson edge.toJson) = .ok edge := by
  have participants : listOf size (ofJson (.ofList .ofWord edge.participants)) =
      .ok edge.participants := listOf_ofList fun n _ => wordAs_ofWord "usize" n
  have basis : listOf text (ofJson (.ofList .string edge.basis)) = .ok edge.basis :=
    listOf_ofList fun _ _ => rfl
  have entries := ((Fields.reads_field "participants" participants).andField "basis" basis
    (by simp)).andField "sign" (float_ofFloat finite) (by simp)
  exact (entries.map _).decode "Hyperedge"

theorem AxesSection.decode_toJson {part : AxesSection Float}
    (axes : ∀ axis ∈ part.axes, AxisSet.IsSound axis)
    (target : part.targetViolation.isFinite = true) :
    AxesSection.decode (ofJson part.toJson) = .ok part := by
  have entries := (Fields.reads_field "axes" (listOf_ofList fun axis inside =>
    AxisSet.decode_toJson (axes axis inside).finite)).andField "target_violation"
      (float_ofFloat target) (by simp)
  exact (entries.map _).decode "FiveDSection"

/-! ## Receipts -/

namespace TupleReceipt

/-- The other entries of a receipt that stands inside of `depth` objects are told apart from its
known fields, and their values fit. -/
structure IsRecordable (depth : Nat) (r : TupleReceipt) : Prop where
  apart : ∀ (key : String) v, r.extra[key]? = some v → fields.Ignores key
  fit : ∀ (key : String) v, r.extra[key]? = some v → v.Fits (depth + 1)

theorem ignores_iff {key : String} :
    fields.Ignores key ↔ key ≠ "tuple_id" ∧ key ≠ "payload_bytes" := by
  simp [fields]

/-- A known field that is not taken is none. -/
theorem ignores_of_take {s : fields.State} {key : String} {d : Document}
    (untaken : fields.take s key d = none) : fields.Ignores key := by
  obtain ⟨id, size⟩ := s
  refine ignores_iff.mpr ⟨?_, ?_⟩
  · rintro rfl
    cases untaken
  · rintro rfl
    cases untaken

theorem takeEntries_of_some {depth : Nat} {s : fields.State} {key : String} {d : Document}
    {known : Except Fault fields.State} (taken : fields.take s key d = some known)
    (extra : Std.ExtTreeMap String Json) (rest : List (Leaf String × Document)) :
    takeEntries depth s extra ((.pure key, d) :: rest) =
      known >>= fun s => takeEntries depth s extra rest := by
  rw [takeEntries]
  change (Except.ok key >>= _) = _
  dsimp only [bind, Except.bind]
  rw [taken]

theorem takeEntries_of_none {depth : Nat} {s : fields.State} {key : String} {d : Document}
    (untaken : fields.take s key d = none) (extra : Std.ExtTreeMap String Json)
    (rest : List (Leaf String × Document)) :
    takeEntries depth s extra ((.pure key, d) :: rest) =
      d.toJson depth >>= fun value => takeEntries depth s (extra.insert key value) rest := by
  rw [takeEntries]
  change (Except.ok key >>= _) = _
  dsimp only [bind, Except.bind]
  rw [untaken]

theorem takeEntries_known {depth : Nat} {s t : fields.State}
    {known : List (String × Json)} (takes : fields.Takes s known t)
    (extra : Std.ExtTreeMap String Json) (rest : List (Leaf String × Document)) :
    takeEntries depth s extra (ofEntries known ++ rest) = takeEntries depth t extra rest := by
  induction takes with
  | nil => rfl
  | @cons s s' t key v known taken _ ih =>
    change takeEntries depth s extra ((.pure key, ofJson v) :: (ofEntries known ++ rest)) = _
    rw [takeEntries_of_some taken]
    exact ih

theorem takeEntries_other {depth : Nat} {s : fields.State} {others : List (String × Json)}
    (apart : ∀ e ∈ others, fields.Ignores e.1) (fit : ∀ e ∈ others, e.2.Fits depth)
    (extra : Std.ExtTreeMap String Json) :
    takeEntries depth s extra (ofEntries others) =
      .ok (s, others.foldl (fun acc e => acc.insert e.1 e.2) extra) := by
  induction others generalizing extra with
  | nil => rfl
  | cons e rest ih =>
    obtain ⟨key, v⟩ := e
    obtain ⟨unknown, laterApart⟩ := List.forall_mem_cons.mp apart
    obtain ⟨fits, laterFit⟩ := List.forall_mem_cons.mp fit
    change takeEntries depth s extra ((.pure key, ofJson v) :: ofEntries rest) = _
    rw [takeEntries_of_none (unknown s _), fits.toJson_ofJson]
    exact ih laterApart laterFit _

theorem decode_toJson {depth : Nat} {r : TupleReceipt} (recordable : r.IsRecordable depth) :
    decode depth (ofJson r.toJson) = .ok r := by
  have known : fields.Reads [("tuple_id", .string r.tupleId), ("payload_bytes", .ofWord r.payloadBytes)]
      (r.tupleId, r.payloadBytes) :=
    (Fields.reads_field "tuple_id" (rfl : text (ofJson (.string r.tupleId)) = _)).andFieldOr
      "payload_bytes" defaultPayloadBytes (wordAs_ofWord "usize" r.payloadBytes) (by simp)
  obtain ⟨s, takes, made⟩ := known
  have held (e) (inside : e ∈ r.extra.toList) : r.extra[e.1]? = some e.2 :=
    Std.ExtTreeMap.mem_toList_iff_getElem?_eq_some.mp inside
  have taken : takeEntries (depth + 1) fields.start ∅ (ofEntries
      ([("tuple_id", .string r.tupleId), ("payload_bytes", .ofWord r.payloadBytes)] ++
        r.extra.toList)) = .ok (s, r.extra) := by
    rw [ofEntries_append, takeEntries_known takes,
      takeEntries_other (fun e inside => recordable.apart e.1 e.2 (held e inside))
        (fun e inside => recordable.fit e.1 e.2 (held e inside)), foldl_insert_toList]
  change (takeEntries (depth + 1) fields.start ∅ (ofEntries _) >>= _) = _
  rw [taken]
  change (fields.finish s >>= _) = _
  rw [made]
  rfl

/-- What becomes of one entry: a known field takes it, or it is kept with its value. -/
inductive TakesEntry (depth : Nat) (name : String) (d : Document) (s : fields.State)
    (extra : Std.ExtTreeMap String Json) : fields.State → Std.ExtTreeMap String Json → Prop
  | known {t : fields.State} : fields.take s name d = some (.ok t) →
    TakesEntry depth name d s extra t extra
  | other {v : Json} : fields.Ignores name → d.toJson depth = .ok v →
    TakesEntry depth name d s extra s (extra.insert name v)

section TakesEntry

variable {depth : Nat} {s s' : fields.State} {extra extra' : Std.ExtTreeMap String Json}

theorem exists_takesEntry {leaf : Leaf String} {d : Document} {rest : List (Leaf String × Document)}
    (taken : takeEntries depth s extra ((leaf, d) :: rest) = .ok (s', extra')) :
    ∃ name t extra₁, leaf.value = .ok name ∧ TakesEntry depth name d s extra t extra₁ ∧
      takeEntries depth t extra₁ rest = .ok (s', extra') := by
  rcases bind_eq_ok.mp taken with ⟨name, named, taken⟩
  cases found : fields.take s name d with
  | some known =>
    rw [found] at taken
    rcases bind_eq_ok.mp taken with ⟨t, rfl, taken⟩
    exact ⟨name, t, extra, named, .known found, taken⟩
  | none =>
    rw [found] at taken
    rcases bind_eq_ok.mp taken with ⟨v, given, taken⟩
    exact ⟨name, s, extra.insert name v, named, .other (ignores_of_take found) given, taken⟩

theorem TakesEntry.takeEntries {name : String} {d : Document}
    (step : TakesEntry depth name d s extra s' extra') (rest : List (Leaf String × Document)) :
    TupleReceipt.takeEntries depth s extra ((.pure name, d) :: rest) =
      TupleReceipt.takeEntries depth s' extra' rest := by
  cases step with
  | known taken => exact takeEntries_of_some taken extra rest
  | other unknown given =>
    rw [takeEntries_of_none (unknown s d), given]
    rfl

/-- The map holds values that fit, under keys of no known fields. -/
def IsKept (depth : Nat) (extra : Std.ExtTreeMap String Json) : Prop :=
  ∀ (key : String) (v : Json), extra[key]? = some v → fields.Ignores key ∧ v.Fits depth

theorem TakesEntry.isKept {name : String} {d : Document}
    (step : TakesEntry depth name d s extra s' extra') (kept : IsKept depth extra) :
    IsKept depth extra' := by
  cases step with
  | known _ => exact kept
  | other unknown given =>
    intro key v inside
    rw [Std.ExtTreeMap.getElem?_insert] at inside
    split at inside
    · next same =>
      cases inside
      rw [← Std.LawfulEqCmp.eq_of_compare same]
      exact ⟨unknown, Document.fits_of_toJson given⟩
    · exact kept key v inside

theorem isKept_of_takeEntries {entries : List (Leaf String × Document)}
    (kept : IsKept depth extra) (taken : takeEntries depth s extra entries = .ok (s', extra')) :
    IsKept depth extra' := by
  induction entries generalizing s extra with
  | nil =>
    cases taken
    exact kept
  | cons e rest ih =>
    rcases exists_takesEntry taken with ⟨_, _, _, -, step, taken⟩
    exact ih (step.isKept kept) taken

end TakesEntry

/-- A receipt that is read has its entries from an object, where they were all taken. -/
theorem exists_takeEntries_of_decode {depth : Nat} {d : Document} {r : TupleReceipt}
    (read : decode depth d = .ok r) :
    ∃ entries close s, d = .object entries close ∧ close.finish = .ok () ∧
      takeEntries (depth + 1) fields.start ∅ entries = .ok (s, r.extra) ∧
      fields.finish s = .ok (r.tupleId, r.payloadBytes) := by
  unfold decode at read
  split at read
  · next entries close =>
    rcases bind_eq_ok.mp read with ⟨⟨s, extra⟩, taken, read⟩
    rcases bind_eq_ok.mp read with ⟨_, closed, read⟩
    rcases bind_eq_ok.mp read with ⟨known, made, read⟩
    cases read
    exact ⟨entries, close, s, rfl, closed, taken, made⟩
  · cases read

theorem isRecordable_of_decode {depth : Nat} {d : Document} {r : TupleReceipt}
    (read : decode depth d = .ok r) : r.IsRecordable depth := by
  rcases exists_takeEntries_of_decode read with ⟨_, _, _, -, -, taken, -⟩
  have empty : IsKept (depth + 1) ∅ := fun key v inside =>
    nomatch Std.ExtTreeMap.getElem?_empty.symm.trans inside
  have kept := isKept_of_takeEntries empty taken
  exact ⟨fun key v inside => (kept key v inside).1, fun key v inside => (kept key v inside).2⟩

end TupleReceipt

/-! ## Settings -/

namespace BridgeSettings

/-- The numbers of the settings are finite, and the receipt can be read back. -/
structure IsRecordable (s : BridgeSettings Float) : Prop where
  receipt : ∀ r ∈ s.receipt, r.IsRecordable 1
  twoQubit : ∀ plan ∈ s.twoQubit, plan.isFinite = true
  axes : ∀ part ∈ s.fiveD, ∀ axis ∈ part.axes, AxisSet.IsSound axis
  target : ∀ part ∈ s.fiveD, part.targetViolation.isFinite = true
  signs : ∀ edge ∈ s.hyperedges, edge.sign.isFinite = true

theorem receipt_of_decode {s : BridgeSettings Float} {d : Document} (read : decode d = .ok s) :
    ∀ r ∈ s.receipt, r.IsRecordable 1 := by
  have given (d : Document) (receipt : Option TupleReceipt)
      (made : optional (TupleReceipt.decode 1) d = .ok receipt) :
      ∀ r ∈ receipt, r.IsRecordable 1 :=
    of_optional (fun _ _ => TupleReceipt.isRecordable_of_decode) made
  have field : (Fields.fieldOr "tuple_receipt" (optional (TupleReceipt.decode 1)) none).Ensures
      fun receipt => ∀ r ∈ receipt, r.IsRecordable 1 :=
    Fields.ensures_fieldOr given nofun
  exact (field.right.left.left.left.map
    (Q := fun s : BridgeSettings Float => ∀ r ∈ s.receipt, r.IsRecordable 1)).decode read

theorem isRecordable_of_plans {s : BridgeSettings Float} {plans : List (EvaluationPlan Float)}
    (receipt : ∀ r ∈ s.receipt, r.IsRecordable 1) (found : s.plans = .ok plans) :
    s.IsRecordable := by
  obtain ⟨two, many, foundTwo, foundMany, -⟩ := plans_eq_ok_iff.mp found
  have sound := isSound_of_hypergraphPlans foundMany
  refine ⟨receipt, isFinite_of_twoPartyPlans foundTwo, fun part inside => (sound part inside).axes,
    fun part inside => (sound part inside).target, ?_⟩
  intro edge inside
  cases present : s.fiveD with
  | none =>
    rw [hyperedges_of_hypergraphPlans foundMany present] at inside
    cases inside
  | some part => exact Binary64.isFinite_of_unit ((sound part present).hyperedges edge inside).sign

theorem decode_toJson {s : BridgeSettings Float} (recordable : s.IsRecordable) :
    decode (ofJson s.toJson) = .ok s := by
  have seed : text (ofJson (.string s.seed)) = .ok s.seed := rfl
  have receipt : optional (TupleReceipt.decode 1) (ofJson (.ofOption TupleReceipt.toJson s.receipt)) =
      .ok s.receipt :=
    optional_ofOption fun r inside =>
      ⟨ofJson_object_ne_null _, TupleReceipt.decode_toJson (recordable.receipt r inside)⟩
  have twoQubit : optional TwoPartyPlan.decode (ofJson (.ofOption TwoPartyPlan.toJson s.twoQubit)) =
      .ok s.twoQubit :=
    optional_ofOption fun plan inside =>
      ⟨ofJson_object_ne_null _, TwoPartyPlan.decode_toJson (recordable.twoQubit plan inside)⟩
  have fiveD : optional AxesSection.decode (ofJson (.ofOption AxesSection.toJson s.fiveD)) =
      .ok s.fiveD :=
    optional_ofOption fun part inside => ⟨ofJson_object_ne_null _, AxesSection.decode_toJson
      (recordable.axes part inside) (recordable.target part inside)⟩
  have hyperedges : listOf Hyperedge.decode (ofJson (.ofList Hyperedge.toJson s.hyperedges)) =
      .ok s.hyperedges :=
    listOf_ofList fun edge inside => Hyperedge.decode_toJson (recordable.signs edge inside)
  have known := (Fields.reads_fieldOr "qrng_epoch" 0 (wordAs_ofWord "u64" s.epoch)).andField
    "qrng_seed_hex" seed (by simp)
  have withReceipt := known.andFieldOr "tuple_receipt" none receipt (by simp)
  have withPair := withReceipt.andFieldOr "two_qubit" none twoQubit (by simp)
  have withAxes := withPair.andFieldOr "five_d" none fiveD (by simp)
  have entries := withAxes.andFieldOr "hyperedges" [] hyperedges (by simp)
  exact (entries.map _).decode "BridgeSettings"

/-- Settings that were accepted survive their own record: what is read from it are the same
settings, which are valid and ask for the same plans. -/
theorem accepted_reread {content : String} {s : BridgeSettings Float}
    (accepted : ofText content = .ok s) :
    ∃ read, decode (ofJson s.toJson) = .ok read ∧ read = s ∧ read.validate = .ok () ∧
      ∃ plans, s.plans = .ok plans ∧ read.plans = .ok plans := by
  obtain ⟨read, valid⟩ := ofText_eq_ok_iff.mp accepted
  obtain ⟨d, made⟩ := exists_decode_of_decodeText read
  obtain ⟨-, plans, found⟩ := validate_eq_ok_iff.mp valid
  have recordable := isRecordable_of_plans (receipt_of_decode made) found
  exact ⟨s, decode_toJson recordable, rfl, valid, plans, found, found⟩

/-- Settings with both plans, most of their parts given as lists, and a receipt with another
entry. -/
def listedText : String :=
  "\x7b\"qrng_seed_hex\":\"ab\",\"tuple_receipt\":\x7b\"tuple_id\":\"t\",\"note\":[1]\x7d," ++
    "\"two_qubit\":[[[0,1]],[[0.5,1]],2,3],\"five_d\":[[\x7b\"primary\":[0.5,0]\x7d],1]," ++
    "\"hyperedges\":[[[0],[\"primary\"],-1]]\x7d"

theorem accepted_reread_listed :
    ∃ s, ofText listedText = .ok s ∧ ∃ read, decode (ofJson s.toJson) = .ok read ∧ read = s ∧
      read.validate = .ok () ∧ ∃ plans, s.plans = .ok plans ∧ read.plans = .ok plans := by
  have accepted : (ofText listedText).isOk = true := by decide +kernel
  cases made : ofText listedText with
  | error e =>
    rw [made] at accepted
    cases accepted
  | ok s => exact ⟨s, rfl, accepted_reread made⟩

end BridgeSettings

end Nonlocal
