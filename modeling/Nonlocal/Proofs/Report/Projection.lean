import Nonlocal.Proofs.Json.Finite
import Nonlocal.Proofs.Json.Reread
import Nonlocal.Proofs.Report.RoundTrip

/-!
Projections and their records.

A record has two maps over the names of axes, one for the vectors and one for their lengths.
Whatever the order of its entries is, it is read if both maps are about the same axes, and the axes
come out in their own order, each with the last vector and the last length that stand under its
name. What is read is a projection of finite numbers, and such a projection is read back as it was
from its record (`Projection.records_read`). From the text of the record it is read back if each of
its numbers is read from its own text as it was; that is not so for every number
(`Projection.text_not_reread`).
-/

namespace Nonlocal.Projection

open Json Json.Document

/-! ## Records -/

/-- The document is a map that holds these values under these names, in this order. -/
def IsMap {α : Type} (decode : Decoder α) (values : List (String × α)) (d : Document) : Prop :=
  ∃ entries, d = .object entries .closed ∧
    List.Forall₂ (fun e v => e.1.value = .ok v.1 ∧ decode e.2 = .ok v.2) entries values

/-- An entry that is neither of the two maps; it is passed over. -/
def IsOther (e : Leaf String × Document) : Prop :=
  (∃ name, e.1.value = .ok name ∧ name ≠ "axes" ∧ name ≠ "norms") ∧ e.2.skip = .ok ()

/-- A record of a map of vectors and a map of lengths: an object with these two entries and perhaps
others, in any order, or a list of the two maps. -/
inductive IsRecord (vectors : List (String × Vec3 Float)) (norms : List (String × Float)) :
    Document → Prop
  | object {entries others : List (Leaf String × Document)}
    {axes lengths : Leaf String × Document} : entries.Perm (axes :: lengths :: others) →
    axes.1.value = .ok "axes" → lengths.1.value = .ok "norms" →
    IsMap Vec3.decode vectors axes.2 → IsMap float norms lengths.2 →
    (∀ e ∈ others, IsOther e) → IsRecord vectors norms (.object entries .closed)
  | list {axes lengths : Document} : IsMap Vec3.decode vectors axes → IsMap float norms lengths →
    IsRecord vectors norms (.list [axes, lengths] .closed)

/-- The maps are about axes, and both about the same ones. -/
structure IsComplete (vectors : List (String × Vec3 Float)) (norms : List (String × Float)) :
    Prop where
  known : ∀ name ∈ vectors.map Prod.fst ++ norms.map Prod.fst, name ∈ Axis.all.map Axis.name
  matched : ∀ axis : Axis, axis.name ∈ vectors.map Prod.fst ↔ axis.name ∈ norms.map Prod.fst

/-- This is the last value under the name. -/
def IsLast {α : Type} (name : String) (x : α) (values : List (String × α)) : Prop :=
  ∃ before after, values = before ++ (name, x) :: after ∧ name ∉ after.map Prod.fst

/-- The axes are those of the maps in their own order, each with its last vector and length. -/
structure IsJoined (vectors : List (String × Vec3 Float)) (norms : List (String × Float))
    (p : Projection Float) : Prop where
  axes : p.axes.map AxisProjection.axis =
    Axis.all.filter fun axis => axis.name ∈ vectors.map Prod.fst
  vector : ∀ a ∈ p.axes, IsLast a.axis.name a.vector vectors
  norm : ∀ a ∈ p.axes, IsLast a.axis.name a.norm norms

/-! ## Maps over axes -/

section Maps

variable {α : Type} {decode : Decoder α}

/-- Values under axes as values under their names. -/
def named (xs : List (Axis × α)) : List (String × α) :=
  xs.map fun e => (e.1.name, e.2)

theorem choose_eq_ok {name : String} {axis : Axis} :
    choose axisVariants name = .ok axis ↔ name = axis.name := by
  constructor
  · intro chosen
    unfold choose at chosen
    split at chosen
    · next found =>
      cases chosen
      obtain ⟨_, _, listed, -⟩ := List.lookup_eq_some_iff.mp found
      have inside : (name, axis) ∈ axisVariants :=
        listed ▸ List.mem_append_right _ List.mem_cons_self
      obtain ⟨_, -, same⟩ := List.mem_map.mp inside
      cases same
      rfl
    · cases chosen
  · rintro rfl
    cases axis <;> rfl

theorem axisKey_eq_ok {key : Leaf String} {name : String} (written : key.value = .ok name)
    {axis : Axis} : axisKey key = .ok axis ↔ name = axis.name := by
  rw [axisKey, written]
  exact choose_eq_ok

theorem entriesOf_eq_ok {entries : List (Leaf String × Document)} {values : List (String × α)}
    (held : List.Forall₂ (fun e v => e.1.value = .ok v.1 ∧ decode e.2 = .ok v.2) entries values)
    {xs : List (Axis × α)} : entriesOf axisKey decode entries = .ok xs ↔ values = named xs := by
  induction held generalizing xs with
  | nil => cases xs <;> simp [entriesOf, named]
  | @cons e v entries values here _ ih =>
    obtain ⟨key, d⟩ := e
    rw [entriesOf, bind_eq_ok]
    constructor
    · rintro ⟨axis, chosen, rest⟩
      obtain ⟨x, made, rest⟩ := bind_eq_ok.mp rest
      obtain ⟨ys, others, same⟩ := bind_eq_ok.mp rest
      cases same
      have name := (axisKey_eq_ok here.1).mp chosen
      have value : v.2 = x := Except.ok.inj (here.2.symm.trans made)
      rw [ih.mp others, named, named, List.map_cons, ← name, ← value]
    · intro same
      cases xs with
      | nil => cases same
      | cons y ys =>
        obtain ⟨first, others⟩ := List.cons.inj same
        refine ⟨y.1, (axisKey_eq_ok here.1).mpr (congrArg Prod.fst first),
          bind_eq_ok.mpr ⟨y.2, here.2.trans (congrArg (Except.ok ·.2) first),
            bind_eq_ok.mpr ⟨ys, ih.mpr others, rfl⟩⟩⟩

theorem mapOf_eq_ok {values : List (String × α)} {d : Document} (map : IsMap decode values d)
    {xs : List (Axis × α)} : mapOf axisKey decode d = .ok xs ↔ values = named xs := by
  obtain ⟨entries, rfl, held⟩ := map
  rw [← entriesOf_eq_ok held, mapOf, bind_eq_ok]
  exact ⟨fun ⟨_, made, same⟩ => Except.ok.inj same ▸ made, fun made => ⟨xs, made, rfl⟩⟩

theorem exists_named {values : List (String × α)}
    (known : ∀ name ∈ values.map Prod.fst, name ∈ Axis.all.map Axis.name) :
    ∃ xs, values = named xs := by
  induction values with
  | nil => exact ⟨[], rfl⟩
  | cons v rest ih =>
    obtain ⟨here, later⟩ := List.forall_mem_cons.mp known
    obtain ⟨axis, -, name⟩ := List.mem_map.mp here
    obtain ⟨xs, rfl⟩ := ih later
    exact ⟨(axis, v.2) :: xs, by rw [named, named, List.map_cons, name]⟩

theorem mem_all (axis : Axis) : axis ∈ Axis.all := by
  cases axis <;> decide

theorem name_injective : Function.Injective Axis.name := fun a b same =>
  Except.ok.inj ((axisKey_name a).symm.trans (same ▸ axisKey_name b))

theorem name_mem_named {axis : Axis} {xs : List (Axis × α)} :
    axis.name ∈ (named xs).map Prod.fst ↔ axis ∈ xs.map Prod.fst := by
  have names : (named xs).map Prod.fst = (xs.map Prod.fst).map Axis.name := by
    rw [named, List.map_map, List.map_map]
    rfl
  rw [names]
  exact List.mem_map_of_injective name_injective

theorem isLast_named {axis : Axis} {x : α} {xs : List (Axis × α)}
    (found : lastOf? axis xs = some x) : IsLast axis.name x (named xs) := by
  obtain ⟨after, before, listed, fresh⟩ := List.lookup_eq_some_iff.mp found
  have order : xs = before.reverse ++ (axis, x) :: after.reverse := by
    rw [← List.reverse_reverse xs, listed, List.reverse_append, List.reverse_cons,
      List.append_assoc, List.singleton_append]
  refine ⟨named before.reverse, named after.reverse, ?_, ?_⟩
  · rw [order, named, List.map_append, List.map_cons]
    rfl
  · rw [name_mem_named]
    intro again
    obtain ⟨e, inside, same⟩ := List.mem_map.mp again
    have other := fresh e (List.mem_reverse.mp inside)
    rw [same] at other
    simp at other

theorem isSome_lastOf? {axis : Axis} {xs : List (Axis × α)} :
    (lastOf? axis xs).isSome = true ↔ axis ∈ xs.map Prod.fst := by
  rw [lastOf?, List.lookup_isSome_iff, List.mem_map]
  simp only [List.mem_reverse, beq_iff_eq, @eq_comm _ axis]

theorem mem_of_lastOf? {axis : Axis} {x : α} {xs : List (Axis × α)}
    (found : lastOf? axis xs = some x) : (axis, x) ∈ xs := by
  obtain ⟨_, _, listed, -⟩ := List.lookup_eq_some_iff.mp found
  exact List.mem_reverse.mp (listed ▸ List.mem_append_right _ List.mem_cons_self)

end Maps

/-! ## Joining the maps -/

section Assemble

variable {vs : List (Axis × Vec3 Float)} {ns : List (Axis × Float)} {order : List Axis}
  {axes : List (AxisProjection Float)}

theorem exists_assemble : (∃ axes, assemble vs ns order = .ok axes) ↔
    ∀ axis ∈ order, axis ∈ vs.map Prod.fst ↔ axis ∈ ns.map Prod.fst := by
  induction order with
  | nil => exact ⟨fun _ => List.forall_mem_nil _, fun _ => ⟨[], rfl⟩⟩
  | cons axis rest ih =>
    rw [List.forall_mem_cons, ← ih, ← isSome_lastOf?, ← isSome_lastOf?, assemble]
    cases lastOf? axis vs with
    | none => cases lastOf? axis ns <;> simp
    | some v =>
      cases lastOf? axis ns with
      | none => simp
      | some n =>
        simp only [Option.isSome_some, true_and]
        constructor
        · rintro ⟨_, made⟩
          obtain ⟨later, others, -⟩ := bind_eq_ok.mp made
          exact ⟨later, others⟩
        · rintro ⟨later, others⟩
          exact ⟨_, bind_eq_ok.mpr ⟨later, others, rfl⟩⟩

/-- What the maps are joined to along an axis and along the axes behind it. -/
theorem axes_of_assemble (joined : assemble vs ns order = .ok axes) :
    axes.map AxisProjection.axis = order.filter (fun axis => axis ∈ vs.map Prod.fst) ∧
      ∀ a ∈ axes, lastOf? a.axis vs = some a.vector ∧ lastOf? a.axis ns = some a.norm := by
  induction order generalizing axes with
  | nil =>
    cases joined
    exact ⟨rfl, List.forall_mem_nil _⟩
  | cons axis rest ih =>
    rw [assemble] at joined
    split at joined
    · next v n vector norm =>
      obtain ⟨later, others, same⟩ := bind_eq_ok.mp joined
      cases same
      obtain ⟨kept, parts⟩ := ih others
      have inside : axis ∈ vs.map Prod.fst := isSome_lastOf?.mp (vector ▸ rfl)
      rw [List.filter_cons_of_pos (by simpa using inside), List.map_cons, kept]
      exact ⟨rfl, List.forall_mem_cons.mpr ⟨⟨vector, norm⟩, parts⟩⟩
    · next vector norm =>
      have outside : axis ∉ vs.map Prod.fst := fun inside => by
        simpa [vector] using isSome_lastOf?.mpr inside
      rw [List.filter_cons_of_neg (by simpa using outside)]
      exact ih joined
    · cases joined

end Assemble

/-! ## Reading the two fields -/

/-- The fields of a record. -/
def fields : Fields (List (Axis × Vec3 Float) × List (Axis × Float)) :=
  (Fields.field "axes" (mapOf axisKey Vec3.decode)).and (.field "norms" (mapOf axisKey float))

theorem decode_eq_ok {d : Document} {p : Projection Float} : decode d = .ok p ↔
    ∃ vs ns, fields.decode "ProjectionRecord" d = .ok (vs, ns) ∧
      assemble vs ns Axis.all = .ok p.axes := by
  rw [decode, bind_eq_ok, Prod.exists]
  refine exists₂_congr fun vs ns => and_congr_right fun _ => ?_
  rw [bind_eq_ok]
  exact ⟨fun ⟨_, joined, same⟩ => Except.ok.inj same ▸ joined, fun joined => ⟨_, joined, rfl⟩⟩

/-- What was found of the two maps. -/
def found (s : Option (List (Axis × Vec3 Float))) (t : Option (List (Axis × Float))) :
    fields.State :=
  (s, t)

section Fields

variable {e : Leaf String × Document} {rest : List (Leaf String × Document)}
  {vs : List (Axis × Vec3 Float)} {ns : List (Axis × Float)}

theorem takeEntries_axes (key : e.1.value = .ok "axes") (t : Option (List (Axis × Float))) :
    fields.takeEntries (found none t) (e :: rest) =
      mapOf axisKey Vec3.decode e.2 >>= fun vs => fields.takeEntries (found (some vs) t) rest := by
  have taken : fields.take (found none t) "axes" e.2 =
      some (((mapOf axisKey Vec3.decode e.2).map some).map (found · t)) := rfl
  rw [Fields.takeEntries_of_some key taken]
  cases mapOf axisKey Vec3.decode e.2 <;> rfl

theorem takeEntries_norms (key : e.1.value = .ok "norms") (s : Option (List (Axis × Vec3 Float))) :
    fields.takeEntries (found s none) (e :: rest) =
      mapOf axisKey float e.2 >>= fun ns => fields.takeEntries (found s (some ns)) rest := by
  have taken : fields.take (found s none) "norms" e.2 =
      some (((mapOf axisKey float e.2).map some).map (found s ·)) := rfl
  rw [Fields.takeEntries_of_some key taken]
  cases mapOf axisKey float e.2 <;> rfl

theorem takeEntries_others {others : List (Leaf String × Document)}
    (other : ∀ e ∈ others, IsOther e) (s : fields.State) :
    fields.takeEntries s (others ++ rest) = fields.takeEntries s rest := by
  induction others with
  | nil => rfl
  | cons e others ih =>
    obtain ⟨⟨⟨name, key, notAxes, notNorms⟩, skipped⟩, later⟩ := List.forall_mem_cons.mp other
    have unknown : fields.Ignores name := by simp [fields, notAxes, notNorms]
    rw [List.cons_append, Fields.takeEntries_of_none key (unknown s e.2), skipped]
    exact ih later

/-- Two entries of a list stand in one order or in the other, between the others. -/
theorem exists_of_perm {α : Type} {entries others : List α} {a b : α}
    (perm : entries.Perm (a :: b :: others)) :
    ∃ before between after x y, entries = before ++ x :: (between ++ y :: after) ∧
      (x = a ∧ y = b ∨ x = b ∧ y = a) ∧ ∀ e ∈ before ++ between ++ after, e ∈ others := by
  obtain ⟨s, t, rfl⟩ := List.append_of_mem (perm.mem_iff.mpr List.mem_cons_self)
  have rest : (s ++ t).Perm (b :: others) := (List.perm_middle.symm.trans perm).cons_inv
  obtain first | second := List.mem_append.mp (rest.mem_iff.mpr List.mem_cons_self)
  · obtain ⟨s, u, rfl⟩ := List.append_of_mem first
    rw [List.append_assoc, List.cons_append] at rest
    have others := (List.perm_middle.symm.trans rest).cons_inv
    refine ⟨s, u, t, b, a, by rw [List.append_assoc, List.cons_append], .inr ⟨rfl, rfl⟩, ?_⟩
    rw [List.append_assoc]
    exact fun e inside => others.mem_iff.mp inside
  · obtain ⟨u, t, rfl⟩ := List.append_of_mem second
    rw [← List.append_assoc] at rest
    have others := (List.perm_middle.symm.trans rest).cons_inv
    exact ⟨s, u, t, a, b, rfl, .inl ⟨rfl, rfl⟩, fun e inside => others.mem_iff.mp inside⟩

theorem fields_decode_object {entries others : List (Leaf String × Document)}
    {axes lengths : Leaf String × Document} (perm : entries.Perm (axes :: lengths :: others))
    (first : axes.1.value = .ok "axes") (second : lengths.1.value = .ok "norms")
    (other : ∀ e ∈ others, IsOther e) :
    fields.decode "ProjectionRecord" (.object entries .closed) = .ok (vs, ns) ↔
      mapOf axisKey Vec3.decode axes.2 = .ok vs ∧ mapOf axisKey float lengths.2 = .ok ns := by
  obtain ⟨before, between, after, x, y, rfl, order, rest⟩ := exists_of_perm perm
  have outside : ∀ e ∈ before, IsOther e := fun e here => other e (rest e (by simp [here]))
  have inside : ∀ e ∈ between, IsOther e := fun e here => other e (rest e (by simp [here]))
  have behind : ∀ e ∈ after, IsOther e := fun e here => other e (rest e (by simp [here]))
  have ended (s : fields.State) : fields.takeEntries s after = .ok s := by
    rw [← List.append_nil after, takeEntries_others behind]
    rfl
  change (fields.takeEntries (found none none) _ >>= fun s => fields.finish s) = _ ↔ _
  rw [takeEntries_others outside]
  obtain ⟨rfl, rfl⟩ | ⟨rfl, rfl⟩ := order
  · simp only [takeEntries_axes first, takeEntries_others inside, takeEntries_norms second, ended,
      bind_assoc]
    exact bind_both_eq_ok
  · simp only [takeEntries_norms second, takeEntries_others inside, takeEntries_axes first, ended,
      bind_assoc]
    exact bind_swapped_eq_ok

theorem fields_decode_list {axes lengths : Document} :
    fields.decode "ProjectionRecord" (.list [axes, lengths] .closed) = .ok (vs, ns) ↔
      mapOf axisKey Vec3.decode axes = .ok vs ∧ mapOf axisKey float lengths = .ok ns := by
  have inOrder (expected : String) : fields.inOrder expected ⟨0, [axes, lengths], .closed⟩ =
      mapOf axisKey Vec3.decode axes >>= fun vs => mapOf axisKey float lengths >>= fun ns =>
        .ok ((vs, ns), ⟨2, [], .closed⟩) := by
    change ((mapOf axisKey Vec3.decode axes >>= fun vs => .ok (vs, Cursor.mk 1 [lengths] .closed))
      >>= fun r => (Fields.field "norms" (mapOf axisKey float)).inOrder expected r.2 >>= fun q =>
        .ok ((r.1, q.1), q.2)) = _
    cases mapOf axisKey Vec3.decode axes with
    | error => rfl
    | ok vs =>
      change ((mapOf axisKey float lengths >>= fun ns => .ok (ns, Cursor.mk 2 [] .closed)) >>=
        fun q => .ok ((vs, q.1), q.2)) = _
      cases mapOf axisKey float lengths <;> rfl
  rw [← bind_both_eq_ok, Fields.decode, inOrder]
  cases mapOf axisKey Vec3.decode axes with
  | error => rfl
  | ok => cases mapOf axisKey float lengths <;> rfl

end Fields

section Records

variable {vectors : List (String × Vec3 Float)} {norms : List (String × Float)} {d : Document}
  {p : Projection Float}

namespace IsRecord

theorem fields_decode (record : IsRecord vectors norms d) {vs : List (Axis × Vec3 Float)}
    {ns : List (Axis × Float)} : fields.decode "ProjectionRecord" d = .ok (vs, ns) ↔
      vectors = named vs ∧ norms = named ns := by
  cases record with
  | object perm first second axes lengths other =>
    rw [fields_decode_object perm first second other, mapOf_eq_ok axes, mapOf_eq_ok lengths]
  | list axes lengths => rw [fields_decode_list, mapOf_eq_ok axes, mapOf_eq_ok lengths]

/-- A record is read exactly if it is complete. -/
theorem exists_decode (record : IsRecord vectors norms d) :
    (∃ p, decode d = .ok p) ↔ IsComplete vectors norms := by
  constructor
  · rintro ⟨p, made⟩
    obtain ⟨vs, ns, maps, joined⟩ := decode_eq_ok.mp made
    obtain ⟨rfl, rfl⟩ := record.fields_decode.mp maps
    have matched := exists_assemble.mp ⟨p.axes, joined⟩
    refine ⟨fun name inside => ?_, fun axis => ?_⟩
    · have names {α : Type} (xs : List (Axis × α)) (inside : name ∈ (named xs).map Prod.fst) :
          name ∈ Axis.all.map Axis.name := by
        rw [named, List.map_map] at inside
        obtain ⟨e, -, rfl⟩ := List.mem_map.mp inside
        exact List.mem_map_of_mem (mem_all e.1)
      exact (List.mem_append.mp inside).elim (names vs) (names ns)
    · rw [name_mem_named, name_mem_named]
      exact matched axis (mem_all axis)
  · rintro ⟨known, matched⟩
    rw [List.forall_mem_append] at known
    obtain ⟨vs, rfl⟩ := exists_named known.1
    obtain ⟨ns, rfl⟩ := exists_named known.2
    simp only [name_mem_named] at matched
    obtain ⟨axes, joined⟩ := exists_assemble.mpr fun axis (_ : axis ∈ Axis.all) => matched axis
    exact ⟨⟨axes⟩, decode_eq_ok.mpr ⟨vs, ns, record.fields_decode.mpr ⟨rfl, rfl⟩, joined⟩⟩

/-- What a record is read as joins its two maps. -/
theorem isJoined (record : IsRecord vectors norms d) (made : decode d = .ok p) :
    IsJoined vectors norms p := by
  obtain ⟨vs, ns, maps, joined⟩ := decode_eq_ok.mp made
  obtain ⟨rfl, rfl⟩ := record.fields_decode.mp maps
  obtain ⟨kept, parts⟩ := axes_of_assemble joined
  refine ⟨?_, fun a inside => isLast_named (parts a inside).1,
    fun a inside => isLast_named (parts a inside).2⟩
  simp only [kept, name_mem_named]

end IsRecord

end Records

/-! ## Reading what was read -/

theorem decode_axes_sublist {d : Document} {p : Projection Float} (made : decode d = .ok p) :
    (p.axes.map AxisProjection.axis).Sublist Axis.all := by
  obtain ⟨vs, ns, -, joined⟩ := decode_eq_ok.mp made
  rw [(axes_of_assemble joined).1]
  exact List.filter_sublist

section Finite

variable {d : Document} {vs : List (Axis × Vec3 Float)} {ns : List (Axis × Float)}

/-- What was found was read from finite documents. -/
inductive IsFound : fields.State → Prop
  | mk {s : Option (List (Axis × Vec3 Float))} {t : Option (List (Axis × Float))} :
    (∀ vs ∈ s, ∃ d, d.IsFinite ∧ mapOf axisKey Vec3.decode d = .ok vs) →
    (∀ ns ∈ t, ∃ d, d.IsFinite ∧ mapOf axisKey float d = .ok ns) → IsFound (found s t)

theorem isFound_of_take {s s' : fields.State} {name : String} (finite : d.IsFinite)
    (start : IsFound s) (taken : fields.take s name d = some (.ok s')) : IsFound s' := by
  obtain ⟨t, u⟩ := s'
  obtain ⟨axes, lengths⟩ := start
  obtain ⟨first, rfl⟩ | ⟨-, second, rfl⟩ := Fields.take_and_eq_ok.mp taken
  · obtain ⟨-, -, vs, made, rfl⟩ := Fields.takeOnce_eq_ok.mp first
    exact .mk (by rintro _ ⟨⟩; exact ⟨d, finite, made⟩) lengths
  · obtain ⟨-, -, ns, made, rfl⟩ := Fields.takeOnce_eq_ok.mp second
    exact .mk axes (by rintro _ ⟨⟩; exact ⟨d, finite, made⟩)

theorem isFound_of_takeEntries {entries : List (Leaf String × Document)} {s s' : fields.State}
    (finite : ∀ e ∈ entries, e.2.IsFinite) (start : IsFound s)
    (taken : fields.takeEntries s entries = .ok s') : IsFound s' := by
  induction entries generalizing s with
  | nil => exact Except.ok.inj taken ▸ start
  | cons e rest ih =>
    obtain ⟨here, later⟩ := List.forall_mem_cons.mp finite
    obtain ⟨name, key, -⟩ := bind_eq_ok.mp taken
    cases step : fields.take s name e.2 with
    | none =>
      rw [Fields.takeEntries_of_none key step] at taken
      obtain ⟨-, -, taken⟩ := bind_eq_ok.mp taken
      exact ih later start taken
    | some r =>
      rw [Fields.takeEntries_of_some key step] at taken
      obtain ⟨t, rfl, taken⟩ := bind_eq_ok.mp taken
      exact ih later (isFound_of_take here start step) taken

/-- The two maps of a finite document are parts of it. -/
theorem exists_maps (finite : d.IsFinite)
    (made : fields.decode "ProjectionRecord" d = .ok (vs, ns)) :
    (∃ d, d.IsFinite ∧ mapOf axisKey Vec3.decode d = .ok vs) ∧
      ∃ d, d.IsFinite ∧ mapOf axisKey float d = .ok ns := by
  cases finite with
  | object close finite =>
    obtain ⟨s, taken, rest⟩ := bind_eq_ok.mp made
    obtain ⟨-, -, finished⟩ := bind_eq_ok.mp rest
    have start : IsFound fields.start := .mk (s := none) (t := none) nofun nofun
    obtain @⟨t, u, axes, lengths⟩ := isFound_of_takeEntries finite start taken
    obtain ⟨_, first, finished⟩ := bind_eq_ok.mp finished
    obtain ⟨_, second, same⟩ := bind_eq_ok.mp finished
    cases same
    cases t with
    | none => cases first
    | some t =>
      cases u with
      | none => cases second
      | some u =>
        cases first
        cases second
        exact ⟨axes vs rfl, lengths ns rfl⟩
  | list close finite =>
    obtain ⟨⟨_, c⟩, given, rest⟩ := bind_eq_ok.mp made
    obtain ⟨-, -, same⟩ := bind_eq_ok.mp rest
    cases same
    obtain ⟨⟨_, c'⟩, first, given⟩ := bind_eq_ok.mp given
    obtain ⟨⟨_, c''⟩, second, same⟩ := bind_eq_ok.mp given
    cases same
    obtain ⟨axes, listed, vectors⟩ := Fields.exists_next_of_inOrder first
    obtain ⟨lengths, listed', norms⟩ := Fields.exists_next_of_inOrder second
    dsimp only at listed
    rw [listed, listed', List.forall_mem_cons, List.forall_mem_cons] at finite
    exact ⟨⟨axes, finite.1, vectors⟩, lengths, finite.2.1, norms⟩
  | absent | misspelt | null | boolean | number | string => cases made

theorem allFinite_of_vec3 (finite : d.IsFinite) {v : Vec3 Float} (made : Vec3.decode d = .ok v) :
    AllFinite v.toList := by
  obtain ⟨⟨x, y, z⟩, triple, rfl⟩ := map_eq_ok.mp made
  obtain ⟨first, second, third⟩ := isFinite_of_floatTriple finite triple
  simp only [Vec3.toList, allFinite_cons, allFinite_nil, and_true]
  exact ⟨first, second, third⟩

/-- Whatever is read of finite numbers has finite numbers. -/
theorem allFinite_of_decode (finite : d.IsFinite) {p : Projection Float}
    (made : decode d = .ok p) : AllFinite p.numbers := by
  obtain ⟨vs, ns, maps, joined⟩ := decode_eq_ok.mp made
  obtain ⟨⟨axes, axesFinite, vectors⟩, lengths, lengthsFinite, norms⟩ := exists_maps finite maps
  have vectorsFinite : ∀ e ∈ vs, AllFinite e.2.toList :=
    forall_of_mapOf (P := fun v => AllFinite v.toList)
      (fun _ _ finite made => allFinite_of_vec3 finite made) axesFinite vectors
  have normsFinite : ∀ e ∈ ns, e.2.isFinite = true :=
    forall_of_mapOf (P := fun x => x.isFinite = true)
      (fun _ _ finite made => isFinite_of_float finite made) lengthsFinite norms
  rw [numbers, allFinite_flatMap]
  intro a inside
  obtain ⟨vector, norm⟩ := (axes_of_assemble joined).2 a inside
  rw [allFinite_cons]
  exact ⟨normsFinite (a.axis, a.norm) (mem_of_lastOf? norm),
    vectorsFinite (a.axis, a.vector) (mem_of_lastOf? vector)⟩

end Finite

/-- What was read from a text is read back from its record. -/
theorem decode_decode {text : String} {p : Projection Float}
    (made : decodeText decode text = .ok p) :
    AllFinite p.numbers ∧ (p.axes.map AxisProjection.axis).Sublist Axis.all ∧
      decode (ofJson p.toJson) = .ok p := by
  have read := (decodeText_eq_ok.mp made).1
  have finite := allFinite_of_decode (isFinite_read text) read
  have ordered := decode_axes_sublist read
  exact ⟨finite, ordered, decode_toJson finite ordered⟩

/-! ## Texts of records -/

/-- The number is read as it was from its own text. -/
def ReadsBack (x : Float) : Prop :=
  NumberParts.read (numberText x).toList = (.pure (.decimal x), some [])

theorem rereads_ofFloat {x : Float} (same : ReadsBack x) : Rereads (.ofFloat x) := by
  unfold Json.ofFloat
  split
  · exact .decimal same
  · exact .null

theorem rereads_toJson {p : Projection Float} (same : ∀ x ∈ p.numbers, ReadsBack x) :
    Rereads p.toJson := by
  simp only [numbers, List.forall_mem_flatMap, List.forall_mem_cons] at same
  refine .object (List.forall_mem_cons.mpr ⟨.object ?_, List.forall_mem_singleton.mpr (.object ?_)⟩)
  · refine List.forall_mem_map.mpr fun a inside => .array ?_
    exact List.forall_mem_map.mpr fun x part => rereads_ofFloat ((same a inside).2 x part)
  · exact List.forall_mem_map.mpr fun a inside => rereads_ofFloat (same a inside).1

/-- A record is read exactly if its two maps are about the same axes, and then as what joins them.
What is read of a text has finite numbers and is read back as it was from its record, as is every
projection of finite numbers along different axes in their order, such as that of a chaos sample;
from the text of its record it is read back if all of its numbers are. -/
theorem records_read (vectors : List (String × Vec3 Float)) (norms : List (String × Float))
    (d : Document) (text : String) (c : ChaosVector Float) (p : Projection Float) :
    (IsRecord vectors norms d →
      ((∃ q, decode d = .ok q) ↔ IsComplete vectors norms) ∧
        (decode d = .ok p → IsJoined vectors norms p)) ∧
    (AllFinite p.numbers → (p.axes.map AxisProjection.axis).Sublist Axis.all →
      decode (ofJson p.toJson) = .ok p ∧
        ((∀ x ∈ p.numbers, ReadsBack x) → decodeText decode (compact p.toJson) = .ok p)) ∧
    (ofChaos c).axes.map AxisProjection.axis = Axis.all ∧
    (decodeText decode text = .ok p →
      AllFinite p.numbers ∧ (p.axes.map AxisProjection.axis).Sublist Axis.all ∧
        decode (ofJson p.toJson) = .ok p) := by
  refine ⟨fun record => ⟨record.exists_decode, record.isJoined⟩, fun finite ordered => ?_, rfl,
    decode_decode⟩
  have value := decode_toJson finite ordered
  refine ⟨value, fun same => ?_⟩
  have rereads : Rereads p.toJson := rereads_toJson same
  exact decodeText_of_read (read_compact rereads.isFinite) rereads value

/-- A record whose entries stand in the other order, one of them about something else, with a
repeated key, and the projection that is read of it. -/
theorem records_read_reversed :
    let vectors : List (String × Vec3 Float) :=
      [("dim_entropy", ⟨0, 0, -4⟩), ("dim_spatial", ⟨8, 8, 8⟩), ("dim_spatial", ⟨1, 2, 2⟩)]
    let norms : List (String × Float) := [("dim_spatial", 3), ("dim_entropy", 4)]
    let axes : Json := .object (vectors.map fun v => (v.1, v.2.toJson))
    let lengths : Json := .object (norms.map fun v => (v.1, .ofFloat v.2))
    let d : Document := ofJson (.object [("note", .null), ("norms", lengths), ("axes", axes)])
    let p : Projection Float := ⟨[⟨.spatial, ⟨1, 2, 2⟩, 3⟩, ⟨.entropy, ⟨0, 0, -4⟩, 4⟩]⟩
    (IsRecord vectors norms d ∧ IsComplete vectors norms ∧ decode d = .ok p ∧
      IsJoined vectors norms p) ∧
    (AllFinite p.numbers ∧ (p.axes.map AxisProjection.axis).Sublist Axis.all ∧
      (∀ x ∈ p.numbers, ReadsBack x) ∧ decodeText decode (compact p.toJson) = .ok p) ∧
    decode (ofJson p.toJson) = .ok p := by
  intro vectors norms axes lengths d p
  have vectorMap : IsMap Vec3.decode vectors (ofJson axes) :=
    ⟨_, rfl, .cons ⟨rfl, rfl⟩ (.cons ⟨rfl, rfl⟩ (.cons ⟨rfl, rfl⟩ .nil))⟩
  have normMap : IsMap float norms (ofJson lengths) :=
    ⟨_, rfl, .cons ⟨rfl, rfl⟩ (.cons ⟨rfl, rfl⟩ .nil)⟩
  have perm := List.reverse_perm [(Leaf.pure "axes", ofJson axes), (.pure "norms", ofJson lengths),
    (.pure "note", .null)]
  have other : IsOther (.pure "note", .null) := ⟨⟨"note", rfl, by decide, by decide⟩, rfl⟩
  have record : IsRecord vectors norms d :=
    .object perm rfl rfl vectorMap normMap (List.forall_mem_singleton.mpr other)
  have made : decode d = .ok p := rfl
  let c : ChaosVector Float := ⟨⟨1, 2, 2⟩, ⟨0, 0, 0⟩, 0⟩
  obtain ⟨reads, rereads, -, again⟩ := records_read vectors norms d (compact p.toJson) c p
  obtain ⟨complete_iff, joins⟩ := reads record
  have finite : AllFinite p.numbers := by decide +kernel
  have ordered : (p.axes.map AxisProjection.axis).Sublist Axis.all := by decide
  have same : ∀ x ∈ p.numbers, ReadsBack x := by
    change ∀ x ∈ [3, 1, 2, 2, 4, 0, 0, -4], ReadsBack x
    simp only [List.forall_mem_cons]
    exact ⟨rfl, rfl, rfl, rfl, rfl, rfl, rfl, rfl, List.forall_mem_nil _⟩
  have text := (rereads finite ordered).2 same
  exact ⟨⟨record, complete_iff.mp ⟨p, made⟩, made, joins made⟩, ⟨finite, ordered, same, text⟩,
    (again text).2.2⟩

/-- A number that its own text is not read as: the record of a projection is read as another one. -/
theorem text_not_reread :
    let p : Projection Float := ⟨[⟨.spatial, ⟨0.9452706955539223, 0, 0⟩, 1⟩]⟩
    AllFinite p.numbers ∧ (p.axes.map AxisProjection.axis).Sublist Axis.all ∧
      ∃ q, decodeText decode (compact p.toJson) = .ok q ∧ q ≠ p := by
  intro p
  have bits : ((decodeText decode (compact p.toJson)).toOption.map fun q =>
      q.numbers.map Float.toBits) =
        some ([1, 0.9452706955539224, 0, 0].map Float.toBits) := by decide +kernel
  obtain ⟨q, made, values⟩ := Option.map_eq_some_iff.mp bits
  have other : [1, 0.9452706955539224, 0, 0].map Float.toBits ≠ p.numbers.map Float.toBits := by
    decide +kernel
  refine ⟨by decide +kernel, by decide, q, ?_, ?_⟩
  · cases read : decodeText decode (compact p.toJson) with
    | error fault =>
      rw [read] at made
      cases made
    | ok r =>
      rw [read] at made
      cases made
      rfl
  · rintro rfl
    exact other values.symm

end Nonlocal.Projection
