import Mathlib.Data.List.Nodup
import Mathlib.Logic.Function.Basic
import Std.Data.ExtTreeMap
import Nonlocal.Proofs.Json.Inherited
import Nonlocal.Proofs.Json.Values

/-!
Objects as partial functions from keys to values.

The entries of an object are the graph of a partial function (`Json.IsGraph`) if each has its own
key. Setting an entry updates the function at its key, and two lists of entries with the same graph
differ in their order only (`Json.IsGraph.perm`).

The entries of a value in which no object has a key twice are read from its document as they are,
wherever they are read at all (`Json.eq_of_toEntries`). Neither the document of a value nor that of a
text has words without quotes (`Document.IsQuoted`), so that a count that is read from it is a number
there (`Json.toJson_of_wordAs`).
-/

namespace Nonlocal.Json

open Document

/-! ## Graphs of partial functions -/

/-- The entries, each with its own key, are those that the function has. -/
structure IsGraph (entries : List (String × Json)) (h : String → Option Json) : Prop where
  distinct : (entries.map Prod.fst).Nodup
  mem : ∀ key v, (key, v) ∈ entries ↔ h key = some v

section IsGraph

variable {entries others : List (String × Json)} {h : String → Option Json} {key : String}

theorem isGraph_nil : IsGraph [] fun _ => none where
  distinct := List.nodup_nil
  mem _ _ := ⟨nofun, nofun⟩

/-- A map lists the entries that it has. -/
theorem isGraph_toList (m : Std.ExtTreeMap String Json) : IsGraph m.toList fun key => m[key]? where
  distinct := List.pairwise_map.mpr
    (Std.ExtTreeMap.distinct_keys_toList.imp fun apart same => apart (Std.compare_eq_iff_eq.mpr same))
  mem _ _ := Std.ExtTreeMap.mem_toList_iff_getElem?_eq_some

theorem IsGraph.mem_keys (graph : IsGraph entries h) :
    key ∈ entries.map Prod.fst ↔ ∃ v, h key = some v := by
  constructor
  · intro inside
    rcases List.mem_map.mp inside with ⟨⟨_, v⟩, present, rfl⟩
    exact ⟨v, (graph.mem _ v).mp present⟩
  · rintro ⟨v, found⟩
    exact List.mem_map.mpr ⟨(key, v), (graph.mem key v).mpr found, rfl⟩

/-- Entries of one function differ in their order only. -/
theorem IsGraph.perm (left : IsGraph entries h) (right : IsGraph others h) :
    entries.Perm others := by
  refine (List.perm_ext_iff_of_nodup (left.distinct.of_map _) (right.distinct.of_map _)).mpr ?_
  rintro ⟨key, v⟩
  exact (left.mem key v).trans (right.mem key v).symm

theorem IsGraph.cons (graph : IsGraph entries h) (fresh : h key = none) (v : Json) :
    IsGraph ((key, v) :: entries) (Function.update h key (some v)) where
  distinct := by
    refine List.nodup_cons.mpr ⟨fun inside => ?_, graph.distinct⟩
    rcases graph.mem_keys.mp inside with ⟨w, found⟩
    cases fresh.symm.trans found
  mem k w := by
    rw [List.mem_cons, graph.mem k w, Function.update_apply]
    split
    · next same =>
      subst same
      simp [fresh, eq_comm]
    · next other => simp [other]

/-- Under its own key an entry that was set is the only one; the others are as they were. -/
theorem mem_setEntry_iff (distinct : (entries.map Prod.fst).Nodup) {k : String} {v w : Json} :
    (k, w) ∈ setEntry key v entries ↔ if k = key then w = v else (k, w) ∈ entries := by
  induction entries with
  | nil =>
    by_cases same : k = key <;> simp [setEntry, same]
  | cons first rest ih =>
    rcases first with ⟨name, _⟩
    rcases List.nodup_cons.mp distinct with ⟨fresh, others⟩
    rw [setEntry]
    split
    · next here =>
      subst here
      have unlisted : (name, w) ∉ rest := fun inside => fresh (List.mem_map.mpr ⟨_, inside, rfl⟩)
      by_cases same : k = name
      · subst same
        simp [unlisted]
      · simp [same]
    · next elsewhere =>
      rw [List.mem_cons, ih others, List.mem_cons]
      by_cases same : k = key
      · subst same
        simp [Ne.symm elsewhere]
      · simp [same]

theorem IsGraph.setEntry (graph : IsGraph entries h) (key : String) (v : Json) :
    IsGraph (setEntry key v entries) (Function.update h key (some v)) where
  distinct := nodup_setEntry graph.distinct key v
  mem k w := by
    rw [mem_setEntry_iff graph.distinct, Function.update_apply, graph.mem k w]
    split
    · rw [Option.some_inj, eq_comm]
    · rfl

end IsGraph

/-! ## Values without repeated keys -/

/-- No object in the value has a key twice. -/
inductive HasDistinctKeys : Json → Prop
  | null : HasDistinctKeys .null
  | boolean (b : Bool) : HasDistinctKeys (.boolean b)
  | integer (n : Int) : HasDistinctKeys (.integer n)
  | decimal (x : Float) : HasDistinctKeys (.decimal x)
  | string (s : String) : HasDistinctKeys (.string s)
  | array {items : List Json} : (∀ v ∈ items, HasDistinctKeys v) → HasDistinctKeys (.array items)
  | object {entries : List (String × Json)} : (entries.map Prod.fst).Nodup →
    (∀ e ∈ entries, HasDistinctKeys e.2) → HasDistinctKeys (.object entries)

theorem exists_of_toItems {depth : Nat} {items values : List Json}
    (taken : toItems depth (ofItems items) = .ok values) :
    ∀ v ∈ items, ∃ w, toJson depth (ofJson v) = .ok w := by
  induction items generalizing values with
  | nil => exact List.forall_mem_nil _
  | cons v rest ih =>
    rcases bind_eq_ok.mp taken with ⟨w, first, taken⟩
    rcases bind_eq_ok.mp taken with ⟨_, later, -⟩
    exact List.forall_mem_cons.mpr ⟨⟨w, first⟩, ih later⟩

theorem exists_of_toEntries {depth : Nat} {acc entries values : List (String × Json)}
    (taken : toEntries depth acc (ofEntries entries) = .ok values) :
    ∀ e ∈ entries, ∃ w, toJson depth (ofJson e.2) = .ok w := by
  induction entries generalizing acc with
  | nil => exact List.forall_mem_nil _
  | cons e rest ih =>
    rcases bind_eq_ok.mp taken with ⟨_, -, taken⟩
    rcases bind_eq_ok.mp taken with ⟨w, first, later⟩
    exact List.forall_mem_cons.mpr ⟨⟨w, first⟩, ih later⟩

theorem HasDistinctKeys.fits {v w : Json} {depth : Nat} (distinct : v.HasDistinctKeys)
    (read : toJson depth (ofJson v) = .ok w) : v.Fits depth := by
  induction distinct generalizing depth w with
  | null | boolean | integer | decimal | string => constructor
  | @array items _ ih =>
    change (if depth < maxDepth then toItems (depth + 1) (ofItems items) >>= _ else _) = _ at read
    split at read
    · next shallow =>
      rcases bind_eq_ok.mp read with ⟨_, taken, -⟩
      refine .array shallow fun v inside => ?_
      rcases exists_of_toItems taken v inside with ⟨_, made⟩
      exact ih v inside made
    · cases read
  | @object entries distinct _ ih =>
    change (if depth < maxDepth then toEntries (depth + 1) [] (ofEntries entries) >>= _ else _) = _
      at read
    split at read
    · next shallow =>
      rcases bind_eq_ok.mp read with ⟨_, taken, -⟩
      refine .object shallow distinct fun e inside => ?_
      rcases exists_of_toEntries taken e inside with ⟨_, made⟩
      exact ih e inside made
    · cases read

section Entries

variable {depth : Nat} {entries values : List (String × Json)}
  (inside : ∀ e ∈ entries, e.2.HasDistinctKeys)
  (taken : toEntries depth [] (ofEntries entries) = .ok values)

include inside taken

theorem forall_fits_of_toEntries : ∀ e ∈ entries, e.2.Fits depth := by
  intro e present
  rcases exists_of_toEntries taken e present with ⟨_, made⟩
  exact (inside e present).fits made

/-- The entries of an object without repeated keys are read as they are, if they are read. -/
theorem eq_of_toEntries (distinct : (entries.map Prod.fst).Nodup) : values = entries := by
  have fit := forall_fits_of_toEntries inside taken
  have reads : toEntries depth [] (ofEntries entries) = .ok entries :=
    toEntries_ofEntries distinct fun e present => (fit e present).toJson_ofJson
  exact Except.ok.inj (taken.symm.trans reads)

end Entries

/-! ## Documents without plain words -/

namespace Document

/-- No word stands without quotes. -/
inductive IsQuoted : Document → Prop
  | absent (fault : Fault) : IsQuoted (.absent fault)
  | misspelt (fault : Fault) : IsQuoted (.misspelt fault)
  | null : IsQuoted .null
  | boolean (b : Bool) : IsQuoted (.boolean b)
  | number (leaf : Leaf Numeral) : IsQuoted (.number leaf)
  | string (leaf : Leaf String) : IsQuoted (.string leaf)
  | list {items : List Document} (close : ListEnd) : (∀ d ∈ items, IsQuoted d) →
    IsQuoted (.list items close)
  | object {entries : List (Leaf String × Document)} (close : ObjectEnd) :
    (∀ e ∈ entries, IsQuoted e.2) → IsQuoted (.object entries close)

mutual

theorem isQuoted_ofJson (v : Json) : (ofJson v).IsQuoted :=
  match v with
  | .null => .null
  | .boolean b => .boolean b
  | .integer n => .number (.pure (.integer n))
  | .decimal x => .number (.pure (.decimal x))
  | .string s => .string (.pure s)
  | .array items => .list .closed (isQuoted_ofItems items)
  | .object entries => .object .closed (isQuoted_ofEntries entries)

theorem isQuoted_ofItems (items : List Json) : ∀ d ∈ ofItems items, d.IsQuoted :=
  match items with
  | [] => List.forall_mem_nil _
  | v :: rest => List.forall_mem_cons.mpr ⟨isQuoted_ofJson v, isQuoted_ofItems rest⟩

theorem isQuoted_ofEntries (entries : List (String × Json)) :
    ∀ e ∈ ofEntries entries, e.2.IsQuoted :=
  match entries with
  | [] => List.forall_mem_nil _
  | (_, v) :: rest => List.forall_mem_cons.mpr ⟨isQuoted_ofJson v, isQuoted_ofEntries rest⟩

end

theorem isInherited_isQuoted : IsInherited IsQuoted where
  absent := .absent
  misspelt := .misspelt
  null := .null
  boolean := .boolean
  number _ := .number _
  string := .string
  list := .list
  object := .object

/-- Words of a text stand in quotes. -/
theorem isQuoted_read (content : String) : (Document.read content).1.IsQuoted :=
  isInherited_isQuoted.read content

end Document

/-! ## Leaves as values -/

section Leaves

variable {d : Document} {expected : String} {w : UInt64}

/-- What is read as a text is that text as a value. -/
theorem toJson_of_text {s : String} (read : text d = .ok s) (depth : Nat) :
    toJson depth d = .ok (.string s) := by
  cases d with
  | string leaf =>
    change (leaf.value >>= _) = _
    rw [show leaf.value = .ok s from read]
    rfl
  | plain word => exact congrArg (Except.map Json.string) read
  | absent | misspelt | null | boolean | number | list | object => cases read

theorem ofWord_of_wordOf {n : Int} (read : wordOf expected n = .ok w) : Json.ofWord w = .integer n := by
  unfold wordOf at read
  split at read
  · next inside =>
    cases read
    have short : n.toNat < UInt64.size := (Int.toNat_lt inside.1).mpr inside.2
    rw [Json.ofWord, UInt64.toNat_ofNat_of_lt' short, Int.toNat_of_nonneg inside.1]
  · cases read

/-- What is read as a count is that number as a value, unless it was a plain word. -/
theorem toJson_of_wordAs (quoted : d.IsQuoted) (read : wordAs expected d = .ok w) (depth : Nat) :
    toJson depth d = .ok (.ofWord w) := by
  cases quoted with
  | number leaf =>
    rcases bind_eq_ok.mp read with ⟨n, given, made⟩
    change (leaf.value >>= _) = _
    rw [given]
    cases n with
    | integer n => exact congrArg Except.ok (ofWord_of_wordOf made).symm
    | decimal x => cases made
  | absent | misspelt | null | boolean | string | list | object => cases read

end Leaves

end Nonlocal.Json
