import Nonlocal.Proofs.Json.Fields
import Nonlocal.Scalar

/-!
Values read back from their JSON.

Numbers that are finite, counts, lists and optional parts are read as they were written. A value of
any kind is read back at a depth if it fits there (`Json.Fits`): its lists and objects are not nested
too deeply, and no object has a key twice. Whatever was read from a text fits where it was read
(`Document.fits_of_toJson`).
-/

namespace Nonlocal

/-! ## Finite numbers -/

/-- All numbers are finite. -/
def AllFinite {K : Type} [Scalar K] (xs : List K) : Prop :=
  ∀ x ∈ xs, Scalar.isFinite x = true

section AllFinite

variable {K : Type} [Scalar K] {xs ys : List K} {x : K}

instance : Decidable (AllFinite xs) :=
  inferInstanceAs (Decidable (∀ x ∈ xs, Scalar.isFinite x = true))

@[simp] theorem allFinite_nil : AllFinite ([] : List K) :=
  List.forall_mem_nil _

@[simp] theorem allFinite_cons : AllFinite (x :: xs) ↔ Scalar.isFinite x = true ∧ AllFinite xs :=
  List.forall_mem_cons

@[simp] theorem allFinite_append : AllFinite (xs ++ ys) ↔ AllFinite xs ∧ AllFinite ys :=
  List.forall_mem_append

@[simp] theorem allFinite_flatMap {α : Type} {as : List α} {f : α → List K} :
    AllFinite (as.flatMap f) ↔ ∀ a ∈ as, AllFinite (f a) :=
  List.forall_mem_flatMap

end AllFinite

namespace Json

open Document

/-! ## Leaves and lists -/

section Leaves

variable {α : Type} {decode : Decoder α} {write : α → Json}

theorem float_ofFloat {x : Float} (finite : x.isFinite = true) :
    float (ofJson (.ofFloat x)) = .ok x := by
  rw [Json.ofFloat, if_pos finite]
  rfl

theorem wordAs_integer (expected : String) (n : Int) :
    wordAs expected (ofJson (.integer n)) = wordOf expected n :=
  rfl

theorem wordAs_ofWord (expected : String) (n : UInt64) :
    wordAs expected (ofJson (.ofWord n)) = .ok n := by
  have inside : 0 ≤ (n.toNat : Int) ∧ (n.toNat : Int) < UInt64.size :=
    ⟨Int.natCast_nonneg _, Int.ofNat_lt.mpr n.toNat_lt⟩
  have same : UInt64.ofNat (n.toNat : Int).toNat = n := UInt64.ofNat_toNat
  rw [Json.ofWord, wordAs_integer, wordOf, if_pos inside, same]

theorem floatPair_ofList {x y : Float} (first : x.isFinite = true) (second : y.isFinite = true) :
    floatPair (ofJson (.ofList .ofFloat [x, y])) = .ok (x, y) := by
  change (do
    let a ← float (ofJson (.ofFloat x))
    let b ← float (ofJson (.ofFloat y))
    return (a, b)) = _
  rw [float_ofFloat first, float_ofFloat second]
  rfl

theorem floatTriple_ofList {x y z : Float} (first : x.isFinite = true)
    (second : y.isFinite = true) (third : z.isFinite = true) :
    floatTriple (ofJson (.ofList .ofFloat [x, y, z])) = .ok (x, y, z) := by
  change (do
    let a ← float (ofJson (.ofFloat x))
    let b ← float (ofJson (.ofFloat y))
    let c ← float (ofJson (.ofFloat z))
    return (a, b, c)) = _
  rw [float_ofFloat first, float_ofFloat second, float_ofFloat third]
  rfl

theorem signedWord_integer (n : Int64) : signedWord (ofJson (.integer n.toInt)) = .ok n := by
  have inside : Int64.minValue.toInt ≤ n.toInt ∧ n.toInt ≤ Int64.maxValue.toInt :=
    ⟨n.le_toInt, n.toInt_le⟩
  change (if _ then Except.ok (Int64.ofInt n.toInt) else _) = _
  rw [if_pos inside, Int64.ofInt_toInt]

theorem items_map {xs : List α} (reads : ∀ x ∈ xs, decode (ofJson (write x)) = .ok x) :
    items decode (ofItems (xs.map write)) = .ok xs := by
  induction xs with
  | nil => rfl
  | cons x rest ih =>
    obtain ⟨first, others⟩ := List.forall_mem_cons.mp reads
    change (decode (ofJson (write x)) >>= _) = _
    rw [first]
    change (items decode (ofItems (rest.map write)) >>= _) = _
    rw [ih others]
    rfl

theorem listOf_ofList {xs : List α} (reads : ∀ x ∈ xs, decode (ofJson (write x)) = .ok x) :
    listOf decode (ofJson (.ofList write xs)) = .ok xs := by
  change (items decode (ofItems (xs.map write)) >>= _) = _
  rw [items_map reads]
  rfl

theorem listOf_float {xs : List Float} (finite : AllFinite xs) :
    listOf float (ofJson (.ofList .ofFloat xs)) = .ok xs :=
  listOf_ofList fun x inside => float_ofFloat (finite x inside)

theorem ofJson_object_ne_null (entries : List (String × Json)) :
    ofJson (.object entries) ≠ .null := by
  intro same
  cases same

theorem optional_of_ne_null {d : Document} (present : d ≠ .null) :
    optional decode d = (decode d).map some := by
  cases d with
  | null => exact absurd rfl present
  | _ => rfl

theorem optional_ofOption {part : Option α}
    (reads : ∀ x ∈ part, ofJson (write x) ≠ .null ∧ decode (ofJson (write x)) = .ok x) :
    optional decode (ofJson (.ofOption write part)) = .ok part := by
  cases part with
  | none => rfl
  | some x =>
    obtain ⟨present, same⟩ := reads x rfl
    change optional decode (ofJson (write x)) = _
    rw [optional_of_ne_null present, same]
    rfl

/-- What is read as an optional part is nothing, or what its decoder makes of some document. -/
theorem of_optional {P : α → Prop} (ensures : ∀ d x, decode d = .ok x → P x) {d : Document}
    {part : Option α} (read : optional decode d = .ok part) : ∀ x ∈ part, P x := by
  by_cases absent : d = .null
  · subst absent
    cases read
    nofun
  · rw [optional_of_ne_null absent] at read
    obtain ⟨x, given, rfl⟩ := map_eq_ok.mp read
    intro y same
    exact Option.some.inj same ▸ ensures d x given

theorem entriesOf_map {κ : Type} {key : Leaf String → Except Fault κ} {name : κ → String}
    {entries : List (κ × α)}
    (reads : ∀ e ∈ entries, key (.pure (name e.1)) = .ok e.1 ∧ decode (ofJson (write e.2)) = .ok e.2) :
    entriesOf key decode (ofEntries (entries.map fun e => (name e.1, write e.2))) = .ok entries := by
  induction entries with
  | nil => rfl
  | cons e rest ih =>
    obtain ⟨⟨named, first⟩, others⟩ := List.forall_mem_cons.mp reads
    change (key (.pure (name e.1)) >>= _) = _
    rw [named]
    change (decode (ofJson (write e.2)) >>= _) = _
    rw [first]
    change (entriesOf key decode (ofEntries (rest.map _)) >>= _) = _
    rw [ih others]
    rfl

theorem mapOf_object {κ : Type} {key : Leaf String → Except Fault κ} {name : κ → String}
    {entries : List (κ × α)}
    (reads : ∀ e ∈ entries, key (.pure (name e.1)) = .ok e.1 ∧ decode (ofJson (write e.2)) = .ok e.2) :
    mapOf key decode (ofJson (.object (entries.map fun e => (name e.1, write e.2)))) =
      .ok entries := by
  change (entriesOf key decode (ofEntries _) >>= _) = _
  rw [entriesOf_map reads]
  rfl

end Leaves

/-! ## Values of any kind -/

/-- The value can stand inside of `depth` lists and objects. -/
inductive Fits : Nat → Json → Prop
  | null (depth : Nat) : Fits depth .null
  | boolean (depth : Nat) (b : Bool) : Fits depth (.boolean b)
  | integer (depth : Nat) (n : Int) : Fits depth (.integer n)
  | decimal (depth : Nat) (x : Float) : Fits depth (.decimal x)
  | string (depth : Nat) (s : String) : Fits depth (.string s)
  | array {depth : Nat} {items : List Json} : depth < maxDepth →
    (∀ v ∈ items, Fits (depth + 1) v) → Fits depth (.array items)
  | object {depth : Nat} {entries : List (String × Json)} : depth < maxDepth →
    (entries.map Prod.fst).Nodup → (∀ e ∈ entries, Fits (depth + 1) e.2) →
    Fits depth (.object entries)

theorem setEntry_of_not_mem {key : String} {entries : List (String × Json)}
    (fresh : key ∉ entries.map Prod.fst) (v : Json) :
    setEntry key v entries = entries ++ [(key, v)] := by
  induction entries with
  | nil => rfl
  | cons e rest ih =>
    obtain ⟨other, later⟩ := not_or.mp (mt List.mem_cons.mpr fresh)
    rw [setEntry, if_neg (Ne.symm other), ih later]
    rfl

theorem mem_setEntry {key : String} {v : Json} {entries : List (String × Json)}
    {e : String × Json} (inside : e ∈ setEntry key v entries) : e = (key, v) ∨ e ∈ entries := by
  induction entries with
  | nil => exact .inl (List.mem_singleton.mp inside)
  | cons first rest ih =>
    unfold setEntry at inside
    split at inside
    · next same =>
      rcases List.mem_cons.mp inside with rfl | later
      · exact .inl (same ▸ rfl)
      · exact .inr (List.mem_cons_of_mem _ later)
    · rcases List.mem_cons.mp inside with rfl | later
      · exact .inr List.mem_cons_self
      · exact (ih later).imp_right (List.mem_cons_of_mem _)

theorem nodup_setEntry {entries : List (String × Json)} (distinct : (entries.map Prod.fst).Nodup)
    (key : String) (v : Json) : ((setEntry key v entries).map Prod.fst).Nodup := by
  induction entries with
  | nil => exact List.nodup_cons.mpr ⟨List.not_mem_nil, List.nodup_nil⟩
  | cons first rest ih =>
    obtain ⟨fresh, others⟩ := List.nodup_cons.mp distinct
    unfold setEntry
    split
    · exact distinct
    · next other =>
      refine List.nodup_cons.mpr ⟨fun again => fresh ?_, ih others⟩
      obtain ⟨e, inside, same⟩ := List.mem_map.mp again
      rcases mem_setEntry inside with rfl | later
      · exact absurd same.symm other
      · exact List.mem_map.mpr ⟨e, later, same⟩

theorem toItems_ofItems {depth : Nat} {values : List Json}
    (reads : ∀ v ∈ values, toJson depth (ofJson v) = .ok v) :
    toItems depth (ofItems values) = .ok values := by
  induction values with
  | nil => rfl
  | cons v rest ih =>
    obtain ⟨first, others⟩ := List.forall_mem_cons.mp reads
    change (toJson depth (ofJson v) >>= _) = _
    rw [first]
    change (toItems depth (ofItems rest) >>= _) = _
    rw [ih others]
    rfl

theorem toEntries_ofEntries {depth : Nat} {acc entries : List (String × Json)}
    (distinct : ((acc ++ entries).map Prod.fst).Nodup)
    (reads : ∀ e ∈ entries, toJson depth (ofJson e.2) = .ok e.2) :
    toEntries depth acc (ofEntries entries) = .ok (acc ++ entries) := by
  -- Keys that were not set before come last, so the entries stay in their order.
  induction entries generalizing acc with
  | nil => exact congrArg Except.ok (List.append_nil acc).symm
  | cons e rest ih =>
    obtain ⟨first, others⟩ := List.forall_mem_cons.mp reads
    have moved : acc ++ e :: rest = acc ++ [e] ++ rest := by rw [List.append_assoc]; rfl
    have fresh : e.1 ∉ acc.map Prod.fst := by
      rw [List.map_append, List.nodup_append] at distinct
      exact fun before => distinct.2.2 e.1 before e.1 List.mem_cons_self rfl
    rw [moved] at distinct ⊢
    change (toJson depth (ofJson e.2) >>= fun value =>
      toEntries depth (setEntry e.1 value acc) (ofEntries rest)) = _
    rw [first]
    change toEntries depth (setEntry e.1 e.2 acc) (ofEntries rest) = _
    rw [setEntry_of_not_mem fresh]
    exact ih distinct others

theorem Fits.toJson_ofJson {depth : Nat} {v : Json} (fits : v.Fits depth) :
    toJson depth (ofJson v) = .ok v := by
  induction fits with
  | null | boolean | integer | decimal | string => rfl
  | @array depth items shallow _ ih =>
    change (if depth < maxDepth then toItems (depth + 1) (ofItems items) >>= _ else _) = _
    rw [if_pos shallow, toItems_ofItems ih]
    rfl
  | @object depth entries shallow distinct _ ih =>
    change (if depth < maxDepth then toEntries (depth + 1) [] (ofEntries entries) >>= _ else _) = _
    have taken : toEntries (depth + 1) [] (ofEntries entries) = .ok entries :=
      toEntries_ofEntries distinct ih
    rw [if_pos shallow, taken]
    rfl

namespace Document

mutual

theorem fits_of_toJson {d : Document} {depth : Nat} {v : Json} (read : toJson depth d = .ok v) :
    v.Fits depth := by
  cases d with
  | absent | misspelt => cases read
  | null | boolean | plain =>
    cases read
    constructor
  | number leaf =>
    obtain ⟨n, -, made⟩ := bind_eq_ok.mp read
    cases n with
    | integer n => cases made; exact .integer depth n
    | decimal x => cases made; exact .decimal depth x
  | string leaf =>
    obtain ⟨s, -, made⟩ := bind_eq_ok.mp read
    cases made
    exact .string depth s
  | list items close =>
    change (if depth < maxDepth then toItems (depth + 1) items >>= _ else _) = _ at read
    split at read
    · next shallow =>
      obtain ⟨values, taken, made⟩ := bind_eq_ok.mp read
      obtain ⟨-, -, made⟩ := bind_eq_ok.mp made
      cases made
      exact .array shallow (fits_of_toItems taken)
    · cases read
  | object entries close =>
    change (if depth < maxDepth then toEntries (depth + 1) [] entries >>= _ else _) = _ at read
    split at read
    · next shallow =>
      obtain ⟨values, taken, made⟩ := bind_eq_ok.mp read
      obtain ⟨-, -, made⟩ := bind_eq_ok.mp made
      cases made
      obtain ⟨distinct, fit⟩ := fits_of_toEntries taken List.nodup_nil nofun
      exact .object shallow distinct fit
    · cases read

theorem fits_of_toItems {items : List Document} {depth : Nat} {values : List Json}
    (read : toItems depth items = .ok values) : ∀ v ∈ values, v.Fits depth := by
  cases items with
  | nil => cases read; nofun
  | cons d rest =>
    obtain ⟨v, first, made⟩ := bind_eq_ok.mp read
    obtain ⟨others, later, made⟩ := bind_eq_ok.mp made
    cases made
    exact List.forall_mem_cons.mpr ⟨fits_of_toJson first, fits_of_toItems later⟩

theorem fits_of_toEntries {entries : List (Leaf String × Document)} {depth : Nat}
    {acc values : List (String × Json)} (read : toEntries depth acc entries = .ok values)
    (distinct : (acc.map Prod.fst).Nodup) (fit : ∀ e ∈ acc, e.2.Fits depth) :
    (values.map Prod.fst).Nodup ∧ ∀ e ∈ values, e.2.Fits depth := by
  cases entries with
  | nil => cases read; exact ⟨distinct, fit⟩
  | cons e rest =>
    obtain ⟨key, d⟩ := e
    obtain ⟨name, -, made⟩ := bind_eq_ok.mp read
    obtain ⟨v, first, made⟩ := bind_eq_ok.mp made
    refine fits_of_toEntries made (nodup_setEntry distinct name v) fun e inside => ?_
    rcases mem_setEntry inside with rfl | before
    · exact fits_of_toJson first
    · exact fit e before

end

end Document

end Json

end Nonlocal
