import Nonlocal.Proofs.Json.Values

/-!
Objects from which entries were removed.

`Json.prune keep` keeps the entries of nested objects whose paths are to be kept. What is read from
the rest is put together along `Fields.and`, as `Fields.Reads` is for whole objects, but it may also
be a fault: `Fields.Gives f entries r` says that these entries give the structure `r`, or are
refused with the fault `r` at the first entry that cannot be read. A field with a default gives what
its entry holds if that was kept, and the default otherwise (`Fields.gives_kept`).
-/

namespace Nonlocal.Json

open Document

/-! ## Removal -/

/-- The paths to keep inside of the entry with the given key. -/
def inside (key : String) (keep : List String → Bool) : List String → Bool :=
  fun path => keep (key :: path)

mutual

/-- The value without the entries whose paths are not kept. -/
def prune (keep : List String → Bool) : Json → Json
  | .object entries => .object (pruneEntries keep entries)
  | v => v

/-- The entries to keep, each without those inside of it that are not kept. -/
def pruneEntries (keep : List String → Bool) : List (String × Json) → List (String × Json)
  | [] => []
  | (key, v) :: rest =>
    (if keep [key] then [(key, prune (inside key keep) v)] else []) ++ pruneEntries keep rest

end

@[simp] theorem prune_ofFloat (keep : List String → Bool) (x : Float) :
    prune keep (.ofFloat x) = .ofFloat x := by
  unfold ofFloat
  split <;> rfl

@[simp] theorem prune_ofWord (keep : List String → Bool) (n : UInt64) :
    prune keep (.ofWord n) = .ofWord n :=
  rfl

@[simp] theorem prune_ofList {α : Type} (keep : List String → Bool) (write : α → Json)
    (xs : List α) : prune keep (.ofList write xs) = .ofList write xs :=
  rfl

mutual

theorem prune_all (v : Json) : prune (fun _ => true) v = v := by
  cases v with
  | object entries => exact congrArg Json.object (pruneEntries_all entries)
  | _ => rfl

theorem pruneEntries_all (entries : List (String × Json)) :
    pruneEntries (fun _ => true) entries = entries := by
  cases entries with
  | nil => rfl
  | cons e rest =>
    have first : prune (inside e.1 fun _ => true) e.2 = e.2 := prune_all e.2
    change (e.1, prune (inside e.1 fun _ => true) e.2) :: pruneEntries (fun _ => true) rest = _
    rw [first, pruneEntries_all rest]

end

namespace Fields

variable {α β : Type} {f : Fields α} {g : Fields β} {name key : String} {read : Decoder α}
  {v : Json}

/-! ## States -/

theorem Takes.ifKept {s s' : f.State} (taken : f.take s key (ofJson v) = some (.ok s'))
    (kept : Bool) :
    f.Takes s (if kept then [(key, v)] else []) (if kept then s' else s) := by
  cases kept with
  | false => exact .nil s
  | true => exact .cons taken (.nil s')

theorem forall_mem_kept {P : String × Json → Prop} (h : P (key, v)) (kept : Bool) :
    ∀ e ∈ (if kept then [(key, v)] else []), P e := by
  cases kept with
  | false => exact List.forall_mem_nil _
  | true => exact List.forall_mem_singleton.mpr h

theorem Takes.and {left right : List (String × Json)} {s : f.State} {t : g.State}
    (first : f.Takes f.start left s) (second : g.Takes g.start right t)
    (apart : ∀ e ∈ right, f.Ignores e.1) :
    (f.and g).Takes (f.and g).start (left ++ right) (s, t) :=
  (first.left g.start).append (second.right apart s)

theorem Takes.decode {entries : List (String × Json)} {s : f.State}
    (takes : f.Takes f.start entries s) (title : String) :
    f.decode title (ofJson (.object entries)) = f.finish s := by
  change (f.takeEntries f.start (ofEntries entries) >>= _) = _
  rw [takes.takeEntries]
  rfl

/-! ## Results -/

/-- Some entry cannot be read, and those before it can. -/
def Refuses (f : Fields α) (entries : List (String × Json)) (e : Fault) : Prop :=
  ∃ before key v after s, entries = before ++ (key, v) :: after ∧ f.Takes f.start before s ∧
    f.take s key (ofJson v) = some (.error e)

/-- The entries make up the structure, or are refused with the fault. -/
def Gives (f : Fields α) (entries : List (String × Json)) : Except Fault α → Prop
  | .ok x => f.Reads entries x
  | .error e => f.Refuses entries e

theorem Refuses.left {entries : List (String × Json)} {e : Fault} (h : f.Refuses entries e)
    (g : Fields β) (more : List (String × Json)) : (f.and g).Refuses (entries ++ more) e := by
  obtain ⟨before, key, v, after, s, rfl, takes, refused⟩ := h
  refine ⟨before, key, v, after ++ more, (s, g.start), ?_, takes.left g.start, ?_⟩
  · rw [List.append_assoc, List.cons_append]
  · rw [take_and_of_some refused]
    rfl

theorem Refuses.right {left right : List (String × Json)} {x : α} {e : Fault}
    (first : f.Reads left x) (h : g.Refuses right e) (apart : ∀ e ∈ right, f.Ignores e.1) :
    (f.and g).Refuses (left ++ right) e := by
  obtain ⟨s, takes, -⟩ := first
  obtain ⟨before, key, v, after, t, rfl, takes', refused⟩ := h
  have unknown : f.Ignores key := apart (key, v) (by simp)
  have earlier : ∀ e ∈ before, f.Ignores e.1 := fun e found =>
    apart e (List.mem_append_left _ found)
  refine ⟨left ++ before, key, v, after, (s, t), ?_, takes.and takes' earlier, ?_⟩
  · rw [List.append_assoc]
  · rw [take_and_of_ignores unknown, refused]
    rfl

theorem Refuses.takeEntries {entries : List (String × Json)} {e : Fault}
    (h : f.Refuses entries e) : f.takeEntries f.start (ofEntries entries) = .error e := by
  obtain ⟨before, key, v, after, s, rfl, takes, refused⟩ := h
  generalize f.start = first at takes
  induction takes with
  | nil s => exact takeEntries_of_some rfl refused _
  | cons taken _ ih => exact (takeEntries_of_some rfl taken _).trans (ih refused)

/-- No entry of an object that is read was refused when it was its turn. -/
theorem not_refused_of_takeEntries {entries : List (String × Json)} {s t : f.State}
    (taken : f.takeEntries s (ofEntries entries) = .ok t) :
    ∀ e ∈ entries, ∃ s, ∀ fault, f.take s e.1 (ofJson e.2) ≠ some (.error fault) := by
  induction entries generalizing s with
  | nil => exact List.forall_mem_nil _
  | cons e rest ih =>
    rw [List.forall_mem_cons]
    cases found : f.take s e.1 (ofJson e.2) with
    | none =>
      obtain ⟨-, -, later⟩ := bind_eq_ok.mp ((takeEntries_of_none rfl found _).symm.trans taken)
      refine ⟨⟨s, fun fault refused => ?_⟩, ih later⟩
      cases found.symm.trans refused
    | some r =>
      obtain ⟨s', rfl, later⟩ := bind_eq_ok.mp ((takeEntries_of_some rfl found _).symm.trans taken)
      refine ⟨⟨s, fun fault refused => ?_⟩, ih later⟩
      cases found.symm.trans refused

/-- A field with a default: what its entry gives if that was kept, and the default otherwise. -/
theorem gives_kept {r : Except Fault α} (name : String) (missing : α) (kept : Bool)
    (reads : read (ofJson v) = r) :
    (fieldOr name read missing).Gives (if kept then [(name, v)] else [])
      (if kept then r else .ok missing) := by
  cases kept with
  | false => exact ⟨none, .nil _, rfl⟩
  | true =>
    change (fieldOr name read missing).Gives [(name, v)] r
    cases r with
    | ok x => exact reads_fieldOr name missing reads
    | error e =>
      refine ⟨[], name, v, [], none, rfl, .nil _, ?_⟩
      change takeOnce name read none name (ofJson v) = _
      rw [takeOnce, if_pos rfl, reads]
      rfl

/-- A field with a default, whose entry is not refused. -/
theorem gives_kept_ok {y : α} (name : String) (missing : α) (kept : Bool)
    (reads : read (ofJson v) = .ok y) :
    (fieldOr name read missing).Gives (if kept then [(name, v)] else [])
      (.ok (if kept then y else missing)) := by
  have field := gives_kept name missing kept reads
  cases kept <;> exact field

theorem Gives.and {left right : List (String × Json)} {r : Except Fault α} {r' : Except Fault β}
    (first : f.Gives left r) (second : g.Gives right r') (apart : ∀ e ∈ right, f.Ignores e.1) :
    (f.and g).Gives (left ++ right) (r.bind fun x => r'.map (x, ·)) := by
  cases r with
  | error e => exact Refuses.left first g right
  | ok x =>
    cases r' with
    | error e => exact Refuses.right first second apart
    | ok y => exact Reads.and first second apart

/-- One more field with a default. -/
theorem Gives.andKept {entries : List (String × Json)} {r : Except Fault β} {r' : Except Fault α}
    (h : g.Gives entries r) (name : String) (missing : α) (kept : Bool)
    (reads : read (ofJson v) = r') (fresh : g.Ignores name) :
    (g.and (fieldOr name read missing)).Gives (entries ++ if kept then [(name, v)] else [])
      (r.bind fun x => (if kept then r' else .ok missing).map (x, ·)) :=
  h.and (gives_kept name missing kept reads) (forall_mem_kept fresh kept)

/-- One more field with a default, whose entry is not refused. -/
theorem Gives.andKeptOk {entries : List (String × Json)} {r : Except Fault β} {y : α}
    (h : g.Gives entries r) (name : String) (missing : α) (kept : Bool)
    (reads : read (ofJson v) = .ok y) (fresh : g.Ignores name) :
    (g.and (fieldOr name read missing)).Gives (entries ++ if kept then [(name, v)] else [])
      (r.map (·, if kept then y else missing)) := by
  have both := h.and (gives_kept_ok name missing kept reads) (forall_mem_kept fresh kept)
  cases r <;> exact both

theorem Gives.map {entries : List (String × Json)} {r : Except Fault α} (h : f.Gives entries r)
    (make : α → β) : (f.map make).Gives entries (r.map make) := by
  cases r with
  | ok x => exact Reads.map h make
  | error e =>
    obtain ⟨before, key, v, after, s, split, takes, refused⟩ := h
    exact ⟨before, key, v, after, s, split, takes.map make, refused⟩

theorem Gives.decode {entries : List (String × Json)} {r : Except Fault α}
    (h : f.Gives entries r) (title : String) :
    f.decode title (ofJson (.object entries)) = r := by
  cases r with
  | ok x => exact Reads.decode h title
  | error e =>
    change (f.takeEntries f.start (ofEntries entries) >>= _) = _
    rw [Refuses.takeEntries h]
    rfl

end Fields

end Nonlocal.Json
