import Nonlocal.Proofs.Json.Objects
import Nonlocal.Proofs.Settings.RoundTrip

/-!
Receipts hand through what they do not know.

A receipt is read entry by entry, its two known fields apart from the others. What was found so far
is one function from keys to values (`TupleReceipt.held`), and each entry updates it at its key, as
it updates the object that is read from the same entries as a plain value
(`TupleReceipt.isGraph_of_takeEntries`). So the two never differ, and neither does the object that
the receipt is written as, up to the payload size that a receipt without one is given
(`TupleReceipt.handed_through`). Which objects are read at all depends on the known fields alone,
as long as the values of the others fit (`TupleReceipt.IsReceipt`).
-/

namespace Nonlocal.TupleReceipt

open Json Json.Document

/-! ## What was found under a key -/

/-- What was found under a key: the known fields hold theirs, the other entries are in `extra`. -/
def held (s : Option String × Option UInt64) (extra : Std.ExtTreeMap String Json) (key : String) :
    Option Json :=
  if key = "tuple_id" then s.1.map .string
  else if key = "payload_bytes" then s.2.map .ofWord
  else extra[key]?

section Held

variable {extra : Std.ExtTreeMap String Json} {name : String} {d : Document} {depth : Nat}

theorem held_start : held fields.start ∅ = fun _ => none := by
  funext key
  unfold held
  split
  · rfl
  · split
    · rfl
    · exact Std.ExtTreeMap.getElem?_empty

/-- Of a map that has neither known field, nothing is hidden. -/
theorem held_none (apart : ∀ (key : String) v, extra[key]? = some v → fields.Ignores key) :
    held (none, none) extra = fun key => extra[key]? := by
  funext key
  unfold held
  cases found : extra[key]? with
  | none =>
    split
    · rfl
    · split <;> rfl
  | some v =>
    rcases ignores_iff.mp (apart key v found) with ⟨notId, notBytes⟩
    rw [if_neg notId, if_neg notBytes]

theorem held_tupleId (id : String) (before : Option String) (bytes : Option UInt64) :
    held (some id, bytes) extra =
      Function.update (held (before, bytes) extra) "tuple_id" (some (.string id)) := by
  funext key
  rw [Function.update_apply]
  unfold held
  split <;> rfl

theorem held_payloadBytes (id : Option String) (n : UInt64) (before : Option UInt64) :
    held (id, some n) extra =
      Function.update (held (id, before) extra) "payload_bytes" (some (.ofWord n)) := by
  funext key
  rw [Function.update_apply]
  unfold held
  by_cases other : key = "tuple_id"
  · subst other
    rfl
  · rw [if_neg other, if_neg other]
    split <;> rfl

theorem held_insert (s : fields.State) (unknown : fields.Ignores name) (v : Json) :
    held s (extra.insert name v) = Function.update (held s extra) name (some v) := by
  rcases ignores_iff.mp unknown with ⟨notId, notBytes⟩
  funext key
  rw [Function.update_apply]
  unfold held
  by_cases here : key = name
  · subst here
    rw [if_neg notId, if_neg notBytes, if_pos rfl, Std.ExtTreeMap.getElem?_insert_self]
  · have apart : ¬ compare name key = .eq := fun same => here (Std.compare_eq_iff_eq.mp same).symm
    rw [if_neg here, Std.ExtTreeMap.getElem?_insert, if_neg apart]

/-- A known field that takes an entry takes its value. -/
theorem held_of_take {s s' : fields.State} (taken : fields.take s name d = some (.ok s'))
    (quoted : d.IsQuoted) :
    ∃ v, d.toJson depth = .ok v ∧
      held s' extra = Function.update (held s extra) name (some v) := by
  rcases s with ⟨id, bytes⟩
  rcases s' with ⟨id', bytes'⟩
  rcases Fields.take_and_eq_ok.mp taken with ⟨first, rfl⟩ | ⟨-, second, rfl⟩
  · rcases Fields.takeOnce_eq_ok.mp first with ⟨rfl, -, x, read, rfl⟩
    exact ⟨.string x, toJson_of_text read depth, held_tupleId x id bytes⟩
  · rcases Fields.takeOnce_eq_ok.mp second with ⟨rfl, -, n, read, rfl⟩
    exact ⟨.ofWord n, toJson_of_wordAs quoted read depth, held_payloadBytes id n bytes⟩

/-- Wherever an entry goes, its value is found under its key from then on. -/
theorem TakesEntry.held {s s' : fields.State} {extra' : Std.ExtTreeMap String Json}
    (step : TakesEntry depth name d s extra s' extra') (quoted : d.IsQuoted) :
    ∃ v, d.toJson depth = .ok v ∧
      TupleReceipt.held s' extra' =
        Function.update (TupleReceipt.held s extra) name (some v) := by
  cases step with
  | known taken => exact held_of_take taken quoted
  | @other v unknown given => exact ⟨v, given, held_insert s unknown v⟩

end Held

/-- Entries that a receipt takes make up an object as well, and the two agree under every key. -/
theorem isGraph_of_takeEntries {depth : Nat} {s s' : fields.State}
    {extra extra' : Std.ExtTreeMap String Json} {acc : List (String × Json)}
    {entries : List (Leaf String × Document)} (quoted : ∀ e ∈ entries, e.2.IsQuoted)
    (graph : IsGraph acc (held s extra))
    (taken : takeEntries depth s extra entries = .ok (s', extra')) :
    ∃ acc', toEntries depth acc entries = .ok acc' ∧ IsGraph acc' (held s' extra') := by
  induction entries generalizing s extra acc with
  | nil =>
    cases taken
    exact ⟨acc, rfl, graph⟩
  | cons e rest ih =>
    rcases List.forall_mem_cons.mp quoted with ⟨here, later⟩
    rcases exists_takesEntry taken with ⟨name, t, extra₁, named, step, taken⟩
    rcases step.held here with ⟨v, given, updated⟩
    -- The object is updated as the function of what was found is.
    have next : IsGraph (setEntry name v acc) (held t extra₁) := updated ▸ graph.setEntry name v
    rcases ih later next taken with ⟨acc', made, graph'⟩
    exact ⟨acc', bind_eq_ok.mpr ⟨name, named, bind_eq_ok.mpr ⟨v, given, made⟩⟩, graph'⟩

/-! ## Objects that are receipts -/

/-- The value is of the kind that its key asks for, and fits. -/
structure IsEntry (depth : Nat) (key : String) (v : Json) : Prop where
  id : key = "tuple_id" → ∃ s, v = .string s
  bytes : key = "payload_bytes" → ∃ n : UInt64, v = .ofWord n
  fit : v.Fits depth

/-- An object with an id, whose values are of the kinds that their keys ask for. -/
structure IsReceipt (depth : Nat) (entries : List (String × Json)) : Prop where
  named : "tuple_id" ∈ entries.map Prod.fst
  entry : ∀ e ∈ entries, IsEntry depth e.1 e.2

section IsEntry

variable {depth : Nat} {s : fields.State} {extra : Std.ExtTreeMap String Json}

/-- An entry under a key that was not found before is taken. -/
theorem exists_takesEntry_of_fresh {name : String} {v : Json} (entry : IsEntry depth name v)
    (fresh : held s extra name = none) :
    ∃ t extra', TakesEntry depth name (ofJson v) s extra t extra' := by
  rcases s with ⟨before, before'⟩
  by_cases isId : name = "tuple_id"
  · subst isId
    rcases entry.id rfl with ⟨s, rfl⟩
    cases before with
    | some _ => cases fresh
    | none =>
      have taken : Fields.takeOnce "tuple_id" text none "tuple_id" (ofJson (.string s)) = _ :=
        Fields.takeOnce_fresh rfl
      exact ⟨_, _, .known (Fields.take_and_eq_ok.mpr (.inl ⟨taken, rfl⟩))⟩
  · by_cases isSize : name = "payload_bytes"
    · subst isSize
      rcases entry.bytes rfl with ⟨n, rfl⟩
      cases before' with
      | some _ => cases fresh
      | none =>
        have untaken := Fields.ignores_field.mpr isId before (ofJson (.ofWord n))
        have taken : Fields.takeOnce "payload_bytes" Json.size none "payload_bytes"
            (ofJson (.ofWord n)) = _ := Fields.takeOnce_fresh (wordAs_ofWord "usize" n)
        exact ⟨_, _, .known (Fields.take_and_eq_ok.mpr (.inr ⟨untaken, taken, rfl⟩))⟩
    · exact ⟨_, _, .other (ignores_iff.mpr ⟨isId, isSize⟩) entry.fit.toJson_ofJson⟩

/-- Entries with distinct keys, none of which was found before, are taken one after the other. -/
theorem exists_takeEntries {entries : List (String × Json)}
    (distinct : (entries.map Prod.fst).Nodup) (kinds : ∀ e ∈ entries, IsEntry depth e.1 e.2)
    (fresh : ∀ e ∈ entries, held s extra e.1 = none) :
    ∃ t extra', takeEntries depth s extra (ofEntries entries) = .ok (t, extra') := by
  induction entries generalizing s extra with
  | nil => exact ⟨s, extra, rfl⟩
  | cons e rest ih =>
    rcases e with ⟨name, v⟩
    rcases List.nodup_cons.mp distinct with ⟨single, distinct⟩
    rcases List.forall_mem_cons.mp kinds with ⟨kind, kinds⟩
    rcases List.forall_mem_cons.mp fresh with ⟨first, fresh⟩
    rcases exists_takesEntry_of_fresh kind first with ⟨t, extra₁, step⟩
    rcases step.held (isQuoted_ofJson v) with ⟨w, -, updated⟩
    have later (e) (inside : e ∈ rest) : held t extra₁ e.1 = none := by
      have other : e.1 ≠ name := fun same => single (List.mem_map.mpr ⟨e, inside, same⟩)
      rw [updated, Function.update_of_ne other, fresh e inside]
    rcases ih distinct kinds later with ⟨t', extra', taken⟩
    exact ⟨t', extra', (step.takeEntries _).trans taken⟩

theorem isReceipt_of_isGraph {entries : List (String × Json)} {id : String} {bytes : Option UInt64}
    (graph : IsGraph entries (held (some id, bytes) extra)) (fit : ∀ e ∈ entries, e.2.Fits depth) :
    IsReceipt depth entries where
  named := graph.mem_keys.mpr ⟨_, rfl⟩
  entry := by
    rintro ⟨key, v⟩ inside
    have found := (graph.mem key v).mp inside
    refine ⟨?_, ?_, fit _ inside⟩
    · rintro rfl
      exact ⟨id, (Option.some.inj found).symm⟩
    · rintro rfl
      rcases Option.map_eq_some_iff.mp found with ⟨n, -, same⟩
      exact ⟨n, same.symm⟩

end IsEntry

/-! ## What is handed through -/

/-- The receipt hands the entries of an object through. -/
structure Keeps (r : TupleReceipt) (entries : List (String × Json)) : Prop where
  /-- The object has no key twice. -/
  distinct : (entries.map Prod.fst).Nodup
  /-- The entries under other keys than those of the known fields are kept as they are. -/
  extra : ∀ (key : String) v, r.extra[key]? = some v ↔
    (key, v) ∈ entries ∧ key ≠ "tuple_id" ∧ key ≠ "payload_bytes"
  /-- Written, the receipt is the object in another order and has no key twice. The payload size is
  added if it was left out. -/
  written : ∃ out, r.toJson = .object out ∧ (out.map Prod.fst).Nodup ∧
    out.Perm (entries ++ if "payload_bytes" ∈ entries.map Prod.fst then []
      else [("payload_bytes", .integer 2048)])

section Keeps

variable {entries : List (String × Json)} {id : String} {kept : Std.ExtTreeMap String Json}

/-- The known fields stand before the entries of the map when a receipt is written. -/
theorem isGraph_written (apart : ∀ (key : String) v, kept[key]? = some v → fields.Ignores key)
    (id : String) (n : UInt64) :
    IsGraph ([("tuple_id", .string id), ("payload_bytes", .ofWord n)] ++ kept.toList)
      (held (some id, some n) kept) := by
  have others : IsGraph kept.toList (held (none, none) kept) :=
    held_none apart ▸ isGraph_toList kept
  have unsized : held (none, none) kept "payload_bytes" = none := rfl
  have sized := others.cons unsized (.ofWord n)
  rw [← held_payloadBytes] at sized
  have unnamed : held (none, some n) kept "tuple_id" = none := rfl
  have named := sized.cons unnamed (.string id)
  rw [← held_tupleId] at named
  exact named

theorem keeps_of_isGraph {bytes : Option UInt64}
    (graph : IsGraph entries (held (some id, bytes) kept))
    (apart : ∀ (key : String) v, kept[key]? = some v → fields.Ignores key) :
    Keeps ⟨id, bytes.getD defaultPayloadBytes, kept⟩ entries where
  distinct := graph.distinct
  extra key v := by
    rw [graph.mem]
    unfold held
    constructor
    · intro found
      rcases ignores_iff.mp (apart key v found) with ⟨notId, notBytes⟩
      rw [if_neg notId, if_neg notBytes]
      exact ⟨found, notId, notBytes⟩
    · rintro ⟨found, notId, notBytes⟩
      rw [if_neg notId, if_neg notBytes] at found
      exact found
  written := by
    have out := isGraph_written apart id (bytes.getD defaultPayloadBytes)
    refine ⟨_, rfl, out.distinct, ?_⟩
    cases bytes with
    | some n =>
      have given : "payload_bytes" ∈ entries.map Prod.fst := graph.mem_keys.mpr ⟨_, rfl⟩
      rw [if_pos given, List.append_nil]
      exact out.perm graph
    | none =>
      have missing : "payload_bytes" ∉ entries.map Prod.fst := by
        intro inside
        rcases graph.mem_keys.mp inside with ⟨_, found⟩
        cases found
      have added := graph.setEntry "payload_bytes" (.ofWord defaultPayloadBytes)
      rw [← held_payloadBytes, setEntry_of_not_mem missing] at added
      rw [if_neg missing]
      exact out.perm added

end Keeps

/-! ## From objects to receipts -/

section Decoding

variable {depth : Nat} {d : Document} {r : TupleReceipt} {entries : List (String × Json)}

/-- Once all entries are taken there is an id, and a payload size or the default one. -/
theorem finish_eq_ok {s : fields.State} {id : String} {n : UInt64}
    (made : fields.finish s = .ok (id, n)) :
    ∃ bytes : Option UInt64, s = (some id, bytes) ∧ bytes.getD defaultPayloadBytes = n := by
  rcases s with ⟨found, bytes⟩
  rcases bind_eq_ok.mp made with ⟨x, first, made⟩
  cases found with
  | none => cases first
  | some y =>
    cases first
    cases made
    exact ⟨bytes, rfl, rfl⟩

/-- A receipt is read along with the object that its entries are as a plain value. -/
theorem exists_isGraph_of_decode (quoted : d.IsQuoted) (read : decode depth d = .ok r) :
    ∃ ds close acc bytes, d = .object ds close ∧ close.finish = .ok () ∧
      toEntries (depth + 1) [] ds = .ok acc ∧ IsGraph acc (held (some r.tupleId, bytes) r.extra) ∧
      bytes.getD defaultPayloadBytes = r.payloadBytes := by
  rcases exists_takeEntries_of_decode read with ⟨ds, close, s, rfl, closed, taken, made⟩
  rcases finish_eq_ok made with ⟨bytes, rfl, payload⟩
  have inside : ∀ e ∈ ds, e.2.IsQuoted := by
    cases quoted with
    | object _ inside => exact inside
  rcases isGraph_of_takeEntries inside (held_start ▸ isGraph_nil) taken with ⟨acc, object, graph⟩
  exact ⟨ds, close, acc, bytes, rfl, closed, object, graph, payload⟩

theorem keeps_of_decode {bytes : Option UInt64} (read : decode depth d = .ok r)
    (graph : IsGraph entries (held (some r.tupleId, bytes) r.extra))
    (payload : bytes.getD defaultPayloadBytes = r.payloadBytes) : r.Keeps entries := by
  have keeps := keeps_of_isGraph graph (isRecordable_of_decode read).apart
  rw [payload] at keeps
  exact keeps

/-- What is read from a text is read from the value that the text stands for. -/
theorem keeps_of_decodeText {content : String} (read : decodeText (decode 0) content = .ok r) :
    ∃ entries, decodeText (Document.toJson 0) content = .ok (.object entries) ∧
      r.Keeps entries := by
  rcases decodeText_eq_ok.mp read with ⟨made, blank⟩
  rcases exists_isGraph_of_decode (isQuoted_read content) made with
    ⟨ds, close, acc, bytes, document, closed, object, graph, payload⟩
  have value : Document.toJson 0 (Document.read content).1 = .ok (.object acc) := by
    rw [document]
    exact bind_eq_ok.mpr ⟨acc, object, bind_eq_ok.mpr ⟨(), closed, rfl⟩⟩
  exact ⟨acc, decodeText_eq_ok.mpr ⟨value, blank⟩, keeps_of_decode made graph payload⟩

theorem keeps_of_decode_ofJson {v : Json} (distinct : v.HasDistinctKeys)
    (read : decode depth (ofJson v) = .ok r) :
    ∃ entries, v = .object entries ∧ IsReceipt (depth + 1) entries ∧ r.Keeps entries := by
  rcases exists_isGraph_of_decode (isQuoted_ofJson v) read with
    ⟨_, _, acc, bytes, document, -, object, graph, payload⟩
  cases distinct with
  | @object entries distinct inside =>
    cases document
    rw [eq_of_toEntries inside object distinct] at graph
    have fit := forall_fits_of_toEntries inside object
    exact ⟨entries, rfl, isReceipt_of_isGraph graph fit, keeps_of_decode read graph payload⟩
  | null | boolean | integer | decimal | string | array => cases document

theorem exists_decode_of_isReceipt (distinct : (entries.map Prod.fst).Nodup)
    (receipt : IsReceipt (depth + 1) entries) :
    ∃ r, decode depth (ofJson (.object entries)) = .ok r := by
  have fresh (e) (_ : e ∈ entries) : held fields.start ∅ e.1 = none := congrFun held_start e.1
  rcases exists_takeEntries distinct receipt.entry fresh with ⟨⟨found, bytes⟩, extra, taken⟩
  rcases isGraph_of_takeEntries (isQuoted_ofEntries entries) (held_start ▸ isGraph_nil) taken with
    ⟨acc, object, graph⟩
  have same : toEntries (depth + 1) [] (ofEntries entries) = .ok entries :=
    toEntries_ofEntries distinct fun e inside => (receipt.entry e inside).fit.toJson_ofJson
  cases object.symm.trans same
  -- Whatever the other fields hold, the id was found.
  rcases graph.mem_keys.mp receipt.named with ⟨v, named⟩
  rcases Option.map_eq_some_iff.mp named with ⟨id, given, -⟩
  cases given
  refine ⟨⟨id, bytes.getD defaultPayloadBytes, extra⟩, bind_eq_ok.mpr ⟨_, taken, ?_⟩⟩
  exact bind_eq_ok.mpr ⟨(), rfl, bind_eq_ok.mpr ⟨(id, bytes.getD defaultPayloadBytes), rfl, rfl⟩⟩

end Decoding

/-- A receipt hands its object through, whether it is read from a text or from a value: its map has
the entries under other keys than those of the two known fields, with their values as they are, and
what it is written as is the object again in another order, with no key twice, and with the default
payload size if the object has none. The values that are read are the objects with an id, and with a
count if they have a payload size. -/
theorem handed_through :
    (∀ (content : String) (r : TupleReceipt), decodeText (decode 0) content = .ok r →
      ∃ entries, decodeText (Document.toJson 0) content = .ok (.object entries) ∧
        r.Keeps entries) ∧
    ∀ (depth : Nat) (v : Json), v.HasDistinctKeys →
      ((∃ r, decode depth (ofJson v) = .ok r) ↔
        ∃ entries, v = .object entries ∧ IsReceipt (depth + 1) entries) ∧
      ∀ r, decode depth (ofJson v) = .ok r → ∃ entries, v = .object entries ∧ r.Keeps entries := by
  refine ⟨fun content r read => keeps_of_decodeText read, fun depth v distinct => ⟨⟨?_, ?_⟩, ?_⟩⟩
  · rintro ⟨r, read⟩
    rcases keeps_of_decode_ofJson distinct read with ⟨entries, same, receipt, -⟩
    exact ⟨entries, same, receipt⟩
  · rintro ⟨entries, rfl, receipt⟩
    cases distinct with
    | object distinct _ => exact exists_decode_of_isReceipt distinct receipt
  · intro r read
    rcases keeps_of_decode_ofJson distinct read with ⟨entries, same, -, keeps⟩
    exact ⟨entries, same, keeps⟩

/-- A receipt without a payload size, with nested values. -/
def nestedText : String :=
  "\x7b\"shard\":\x7b\"owner\":[-7,\x7b\x7d,[]],\"weight\":2.5e-1\x7d,\"tuple_id\":\"t\"," ++
    "\"note\":null\x7d"

/-- A receipt with a payload size, with nested values. -/
def nestedValue : Json :=
  .object [("note", .array [.null, .object [], .integer (-18446744073709551615)]),
    ("payload_bytes", .integer 3584), ("tuple_id", .string "t")]

theorem handed_through_nested :
    (∃ r, decodeText (decode 0) nestedText = .ok r ∧
      ∃ entries, decodeText (Document.toJson 0) nestedText = .ok (.object entries) ∧
        r.Keeps entries) ∧
    ∃ r, decode 1 (ofJson nestedValue) = .ok r ∧
      ∃ entries, nestedValue = .object entries ∧ r.Keeps entries := by
  have distinct : nestedValue.HasDistinctKeys := by
    refine .object (by simp) ?_
    simp only [List.forall_mem_cons]
    refine ⟨.array ?_, .integer _, .string _, List.forall_mem_nil _⟩
    simp only [List.forall_mem_cons]
    exact ⟨.null, .object List.nodup_nil (List.forall_mem_nil _), .integer _, List.forall_mem_nil _⟩
  constructor
  · have succeeds : (decodeText (decode 0) nestedText).isOk = true := by decide +kernel
    rcases exists_of_isOk succeeds with ⟨r, read⟩
    exact ⟨r, read, handed_through.1 _ r read⟩
  · have succeeds : (decode 1 (ofJson nestedValue)).isOk = true := by decide +kernel
    rcases exists_of_isOk succeeds with ⟨r, read⟩
    exact ⟨r, read, (handed_through.2 1 _ distinct).2 r read⟩

end Nonlocal.TupleReceipt
