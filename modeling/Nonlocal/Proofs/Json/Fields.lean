import Nonlocal.Json.Decode

/-!
Structures and their fields.

An object that lists the fields of a structure in their declared order is read as that structure:
`Fields.Reads f entries x` says that these entries, taken one after the other, make up `x`, and it is
put together along `Fields.and` as long as no entry is taken by a field before its own. In the other
direction `Fields.Ensures f P` says that whatever is read, from an object or from a list, has the
property `P`; it follows from what the decoder of a single field ensures.
-/

namespace Nonlocal.Json

section Results

variable {ε α β : Type} {x : Except ε α} {b : β}

theorem bind_eq_ok {f : α → Except ε β} : (x >>= f) = .ok b ↔ ∃ a, x = .ok a ∧ f a = .ok b := by
  cases x with
  | error e => exact ⟨nofun, fun ⟨_, absent, _⟩ => nomatch absent⟩
  | ok a => exact ⟨fun h => ⟨a, rfl, h⟩, fun ⟨_, same, h⟩ => Except.ok.inj same ▸ h⟩

theorem map_eq_ok {f : α → β} : x.map f = .ok b ↔ ∃ a, x = .ok a ∧ f a = b := by
  cases x with
  | error e => exact ⟨nofun, fun ⟨_, absent, _⟩ => nomatch absent⟩
  | ok a =>
    exact ⟨fun h => ⟨a, rfl, Except.ok.inj h⟩, fun ⟨_, same, h⟩ => Except.ok.inj same ▸ h ▸ rfl⟩

theorem exists_of_isOk (succeeds : x.isOk = true) : ∃ a, x = .ok a := by
  cases x with
  | error e => cases succeeds
  | ok a => exact ⟨a, rfl⟩

variable {y : Except ε β} {a : α}

theorem bind_both_eq_ok :
    (x >>= fun a => y >>= fun b => .ok (a, b)) = .ok (a, b) ↔ x = .ok a ∧ y = .ok b := by
  cases x <;> cases y <;> simp [bind, Except.bind]

theorem bind_swapped_eq_ok :
    (y >>= fun b => x >>= fun a => .ok (a, b)) = .ok (a, b) ↔ x = .ok a ∧ y = .ok b := by
  cases x <;> cases y <;> simp [bind, Except.bind]

end Results

/-- The next item of a list is its first one. -/
theorem next_eq_ok {c c' : Cursor} {expected : String} {d : Document}
    (made : c.next expected = .ok (d, c')) : c.items = d :: c'.items := by
  obtain ⟨found, given, same⟩ := bind_eq_ok.mp made
  unfold Cursor.next? at given
  split at given
  · next listed =>
    cases given
    cases same
    exact listed
  · obtain ⟨-, -, none⟩ := bind_eq_ok.mp given
    cases none
    cases same

namespace Document

theorem ofEntries_eq (entries : List (String × Json)) :
    ofEntries entries = entries.map fun e => (.pure e.1, ofJson e.2) := by
  induction entries with
  | nil => rfl
  | cons e rest ih => exact congrArg ((.pure e.1, ofJson e.2) :: ·) ih

theorem ofItems_eq (items : List Json) : ofItems items = items.map ofJson := by
  induction items with
  | nil => rfl
  | cons v rest ih => exact congrArg (ofJson v :: ·) ih

theorem ofEntries_append (left right : List (String × Json)) :
    ofEntries (left ++ right) = ofEntries left ++ ofEntries right := by
  rw [ofEntries_eq, ofEntries_eq, ofEntries_eq, List.map_append]

end Document

/-- A text is read as its document is, if only blanks follow. -/
theorem decodeText_eq_ok {α : Type} {decode : Decoder α} {text : String} {x : α} :
    decodeText decode text = .ok x ↔ decode (Document.read text).1 = .ok x ∧
      ((Document.read text).2.getD []).dropWhile isSpace = [] := by
  unfold decodeText
  rcases Document.read text with ⟨document, rest⟩
  dsimp only
  rw [bind_eq_ok]
  constructor
  · rintro ⟨value, made, read⟩
    split at read
    · next blank =>
      cases read
      exact ⟨made, blank⟩
    · cases read
  · rintro ⟨made, blank⟩
    refine ⟨x, made, ?_⟩
    rw [blank]
    rfl

theorem exists_decode_of_decodeText {α : Type} {decode : Decoder α} {text : String} {x : α}
    (read : decodeText decode text = .ok x) : ∃ d, decode d = .ok x :=
  ⟨_, (decodeText_eq_ok.mp read).1⟩

namespace Fields

open Document

variable {α β : Type} {f : Fields α} {g : Fields β} {name key : String} {read : Decoder α}

/-! ## Entries that fill the fields -/

/-- There is no field of this name. -/
def Ignores (f : Fields α) (key : String) : Prop :=
  ∀ s d, f.take s key d = none

/-- From one state to another by entries that are taken one after the other. -/
inductive Takes (f : Fields α) : f.State → List (String × Json) → f.State → Prop
  | nil (s : f.State) : Takes f s [] s
  | cons {s s' t : f.State} {key : String} {v : Json} {rest : List (String × Json)} :
    f.take s key (ofJson v) = some (.ok s') → Takes f s' rest t → Takes f s ((key, v) :: rest) t

/-- The entries make up the structure. -/
def Reads (f : Fields α) (entries : List (String × Json)) (x : α) : Prop :=
  ∃ s, f.Takes f.start entries s ∧ f.finish s = .ok x

theorem takeOnce_fresh {v : Json} {x : α} (reads : read (ofJson v) = .ok x) :
    takeOnce name read none name (ofJson v) = some (.ok (some x)) := by
  rw [takeOnce, if_pos rfl, reads]
  rfl

/-- A field takes an entry of its name, and only the first one. -/
theorem takeOnce_eq_ok {found found' : Option α} {d : Document} :
    takeOnce name read found key d = some (.ok found') ↔
      key = name ∧ found = none ∧ ∃ x, read d = .ok x ∧ some x = found' := by
  unfold takeOnce
  split
  · next same =>
    cases found with
    | some _ => exact ⟨nofun, fun ⟨_, fresh, _⟩ => nomatch fresh⟩
    | none =>
      rw [Option.some_inj, map_eq_ok]
      exact ⟨fun made => ⟨same, rfl, made⟩, fun ⟨_, _, made⟩ => made⟩
  · next other => exact ⟨nofun, fun ⟨same, _⟩ => absurd same other⟩

/-- In a list, a field is read from the next item. -/
theorem exists_next_of_inOrder {expected : String} {c c' : Cursor} {x : α}
    (taken : (field name read).inOrder expected c = .ok (x, c')) :
    ∃ d, c.items = d :: c'.items ∧ read d = .ok x := by
  obtain ⟨⟨d, rest⟩, next, given⟩ := bind_eq_ok.mp taken
  obtain ⟨y, made, same⟩ := bind_eq_ok.mp given
  cases same
  exact ⟨d, next_eq_ok next, made⟩

@[simp] theorem ignores_field : (field name read).Ignores key ↔ key ≠ name := by
  constructor
  · intro ignored same
    subst same
    exact absurd (ignored none .null) (by simp [field, takeOnce])
  · exact fun other _ _ => if_neg other

@[simp] theorem ignores_fieldOr {missing : α} :
    (fieldOr name read missing).Ignores key ↔ key ≠ name :=
  (ignores_field : (field name read).Ignores key ↔ key ≠ name)

@[simp] theorem ignores_optionalField :
    (optionalField name read).Ignores key ↔ key ≠ name :=
  (ignores_field : (field name (optional read)).Ignores key ↔ key ≠ name)

/-- An entry that the first fields know is theirs. -/
theorem take_and_of_some {s : f.State} {d : Document} {r : Except Fault f.State}
    (taken : f.take s key d = some r) (t : g.State) :
    (f.and g).take (s, t) key d = some (r.map (·, t)) := by
  unfold Fields.and
  dsimp only
  rw [taken]

/-- An entry that the first fields do not know is left to the second ones. -/
theorem take_and_of_none {s : f.State} {d : Document} (untaken : f.take s key d = none)
    (t : g.State) :
    (f.and g).take (s, t) key d = (g.take t key d).map fun r => r.map (s, ·) := by
  unfold Fields.and
  dsimp only
  rw [untaken]

/-- An entry is taken by the first fields, or by the second ones if the first do not know it. -/
theorem take_and_eq_ok {s s' : f.State} {t t' : g.State} {d : Document} :
    (f.and g).take (s, t) key d = some (.ok (s', t')) ↔
      (f.take s key d = some (.ok s') ∧ t = t') ∨
        (f.take s key d = none ∧ g.take t key d = some (.ok t') ∧ s = s') := by
  cases found : f.take s key d with
  | some r =>
    rw [take_and_of_some found]
    constructor
    · intro taken
      rcases map_eq_ok.mp (Option.some.inj taken) with ⟨_, rfl, same⟩
      cases same
      exact .inl ⟨rfl, rfl⟩
    · rintro (⟨first, rfl⟩ | ⟨untaken, -⟩)
      · cases first
        rfl
      · cases untaken
  | none =>
    rw [take_and_of_none found]
    constructor
    · intro taken
      rcases Option.map_eq_some_iff.mp taken with ⟨_, second, made⟩
      rcases map_eq_ok.mp made with ⟨_, rfl, same⟩
      cases same
      exact .inr ⟨rfl, second, rfl⟩
    · rintro (⟨first, -⟩ | ⟨-, second, rfl⟩)
      · cases first
      · rw [second]
        rfl

@[simp] theorem ignores_and : (f.and g).Ignores key ↔ f.Ignores key ∧ g.Ignores key := by
  constructor
  · intro ignored
    have neither (s t d) : f.take s key d = none ∧ g.take t key d = none := by
      have taken := ignored (s, t) d
      cases found : f.take s key d with
      | some r =>
        rw [take_and_of_some found] at taken
        cases taken
      | none =>
        rw [take_and_of_none found] at taken
        exact ⟨rfl, Option.map_eq_none_iff.mp taken⟩
    exact ⟨fun s d => (neither s g.start d).1, fun t d => (neither f.start t d).2⟩
  · rintro ⟨left, right⟩ ⟨s, t⟩ d
    rw [take_and_of_none (left s d), right]
    rfl

theorem take_and_of_ignores (unknown : f.Ignores key) (s : f.State) (t : g.State) (d : Document) :
    (f.and g).take (s, t) key d = (g.take t key d).map fun r => r.map (s, ·) :=
  take_and_of_none (unknown s d) t

theorem takeEntries_of_some {s : f.State} {leaf : Leaf String} {d : Document}
    {r : Except Fault f.State} (written : leaf.value = .ok key)
    (taken : f.take s key d = some r) (rest : List (Leaf String × Document)) :
    f.takeEntries s ((leaf, d) :: rest) = r >>= fun s => f.takeEntries s rest := by
  rw [takeEntries, written]
  dsimp only [bind, Except.bind]
  rw [taken]

theorem takeEntries_of_none {s : f.State} {leaf : Leaf String} {d : Document}
    (written : leaf.value = .ok key) (untaken : f.take s key d = none)
    (rest : List (Leaf String × Document)) :
    f.takeEntries s ((leaf, d) :: rest) = d.skip >>= fun _ => f.takeEntries s rest := by
  rw [takeEntries, written]
  dsimp only [bind, Except.bind]
  rw [untaken]

theorem Takes.append {s s' t : f.State} {left right : List (String × Json)}
    (first : f.Takes s left s') (second : f.Takes s' right t) : f.Takes s (left ++ right) t := by
  induction first with
  | nil => exact second
  | cons taken _ ih => exact .cons taken (ih second)

theorem Takes.left {s s' : f.State} {entries : List (String × Json)} (h : f.Takes s entries s')
    (t : g.State) : (f.and g).Takes (s, t) entries (s', t) := by
  induction h with
  | nil s => exact .nil (f := f.and g) (s, t)
  | cons taken _ ih =>
    refine .cons (f := f.and g) ?_ ih
    rw [take_and_of_some taken]
    rfl

theorem Takes.right {t t' : g.State} {entries : List (String × Json)} (h : g.Takes t entries t')
    (apart : ∀ e ∈ entries, f.Ignores e.1) (s : f.State) :
    (f.and g).Takes (s, t) entries (s, t') := by
  induction h with
  | nil t => exact .nil (f := f.and g) (s, t)
  | cons taken _ ih =>
    obtain ⟨first, others⟩ := List.forall_mem_cons.mp apart
    refine .cons (f := f.and g) ?_ (ih others)
    rw [take_and_of_ignores first, taken]
    rfl

theorem Takes.map {s t : f.State} {entries : List (String × Json)} (h : f.Takes s entries t)
    (make : α → β) : (f.map make).Takes s entries t := by
  induction h with
  | nil s => exact .nil (f := f.map make) s
  | cons taken _ ih => exact .cons (f := f.map make) taken ih

theorem Takes.takeEntries {s t : f.State} {entries : List (String × Json)}
    (h : f.Takes s entries t) : f.takeEntries s (ofEntries entries) = .ok t := by
  induction h with
  | nil => rfl
  | cons taken _ ih => exact (takeEntries_of_some rfl taken _).trans ih

theorem reads_field (name : String) {v : Json} {x : α} (reads : read (ofJson v) = .ok x) :
    (field name read).Reads [(name, v)] x :=
  ⟨some x, .cons (takeOnce_fresh reads) (.nil _), rfl⟩

theorem reads_fieldOr (name : String) (missing : α) {v : Json} {x : α}
    (reads : read (ofJson v) = .ok x) :
    (fieldOr name read missing).Reads [(name, v)] x :=
  ⟨some x, .cons (takeOnce_fresh reads) (.nil _), rfl⟩

theorem Reads.and {left right : List (String × Json)} {x : α} {y : β} (first : f.Reads left x)
    (second : g.Reads right y) (apart : ∀ e ∈ right, f.Ignores e.1) :
    (f.and g).Reads (left ++ right) (x, y) := by
  obtain ⟨s, takes, made⟩ := first
  obtain ⟨t, takes', made'⟩ := second
  refine ⟨(s, t), (takes.left g.start).append (takes'.right apart s), ?_⟩
  change (do let x ← f.finish s; let y ← g.finish t; return (x, y)) = _
  rw [made, made']
  rfl

theorem Reads.andField {entries : List (String × Json)} {x : β} {v : Json} {y : α}
    (h : g.Reads entries x) (name : String) (reads : read (ofJson v) = .ok y)
    (fresh : g.Ignores name) : (g.and (field name read)).Reads (entries ++ [(name, v)]) (x, y) :=
  h.and (reads_field name reads) (List.forall_mem_singleton.mpr fresh)

theorem Reads.andFieldOr {entries : List (String × Json)} {x : β} {v : Json} {y : α}
    (h : g.Reads entries x) (name : String) (missing : α) (reads : read (ofJson v) = .ok y)
    (fresh : g.Ignores name) :
    (g.and (fieldOr name read missing)).Reads (entries ++ [(name, v)]) (x, y) :=
  h.and (reads_fieldOr name missing reads) (List.forall_mem_singleton.mpr fresh)

theorem Reads.map {entries : List (String × Json)} {x : α} (h : f.Reads entries x)
    (make : α → β) : (f.map make).Reads entries (make x) := by
  obtain ⟨s, takes, made⟩ := h
  exact ⟨s, takes.map make, map_eq_ok.mpr ⟨x, made, rfl⟩⟩

theorem Reads.decode {entries : List (String × Json)} {x : α} (h : f.Reads entries x)
    (title : String) : f.decode title (ofJson (.object entries)) = .ok x := by
  obtain ⟨s, takes, made⟩ := h
  change (f.takeEntries f.start (ofEntries entries) >>= _) = _
  rw [takes.takeEntries]
  exact made

/-! ## What is read -/

/-- Whatever is read has the property. In an object an invariant of the fields found so far carries
it from the first entry to the last. -/
structure Ensures (f : Fields α) (P : α → Prop) : Prop where
  object : ∃ I : f.State → Prop, I f.start ∧
    (∀ s key d s', I s → f.take s key d = some (.ok s') → I s') ∧
    ∀ s x, I s → f.finish s = .ok x → P x
  list : ∀ expected c x c', f.inOrder expected c = .ok (x, c') → P x

variable {P : α → Prop} {Q : β → Prop}

theorem takeOnce_ensures (ensures : ∀ d x, read d = .ok x → P x) {found found' : Option α}
    {d : Document} (taken : takeOnce name read found key d = some (.ok found')) :
    ∀ x ∈ found', P x := by
  rcases takeOnce_eq_ok.mp taken with ⟨-, -, x, given, rfl⟩
  intro y same
  exact Option.some.inj same ▸ ensures d x given

theorem ensures_fieldOr {missing : α} (ensures : ∀ d x, read d = .ok x → P x)
    (default : P missing) : (fieldOr name read missing).Ensures P where
  object := by
    refine ⟨fun found : Option α => ∀ x ∈ found, P x, nofun,
      fun _ _ _ _ _ => takeOnce_ensures ensures, ?_⟩
    intro found x held made
    cases made
    cases found with
    | none => exact default
    | some y => exact held y rfl
  list := by
    intro expected c x c' made
    obtain ⟨next, -, rest⟩ := bind_eq_ok.mp made
    cases next with
    | none => cases rest; exact default
    | some next =>
      obtain ⟨y, given, same⟩ := bind_eq_ok.mp rest
      cases same
      exact ensures next.1 x given

theorem Ensures.left (h : f.Ensures P) : (f.and g).Ensures fun x => P x.1 where
  object := by
    obtain ⟨I, start, step, finish⟩ := h.object
    refine ⟨fun s => I s.1, start, ?_, ?_⟩
    · rintro ⟨s, t⟩ key d ⟨s', t'⟩ held taken
      rcases take_and_eq_ok.mp taken with ⟨first, -⟩ | ⟨-, -, rfl⟩
      · exact step s key d s' held first
      · exact held
    · rintro ⟨s, t⟩ x held made
      obtain ⟨y, first, rest⟩ := bind_eq_ok.mp made
      obtain ⟨z, -, same⟩ := bind_eq_ok.mp rest
      cases same
      exact finish s y held first
  list := by
    intro expected c x c' made
    obtain ⟨⟨y, c₁⟩, first, rest⟩ := bind_eq_ok.mp made
    obtain ⟨⟨z, c₂⟩, -, same⟩ := bind_eq_ok.mp rest
    cases same
    exact h.list expected c y c₁ first

theorem Ensures.right (h : g.Ensures Q) : (f.and g).Ensures fun x => Q x.2 where
  object := by
    obtain ⟨I, start, step, finish⟩ := h.object
    refine ⟨fun s => I s.2, start, ?_, ?_⟩
    · rintro ⟨s, t⟩ key d ⟨s', t'⟩ held taken
      rcases take_and_eq_ok.mp taken with ⟨-, rfl⟩ | ⟨-, second, -⟩
      · exact held
      · exact step t key d t' held second
    · rintro ⟨s, t⟩ x held made
      obtain ⟨y, -, rest⟩ := bind_eq_ok.mp made
      obtain ⟨z, second, same⟩ := bind_eq_ok.mp rest
      cases same
      exact finish t z held second
  list := by
    intro expected c x c' made
    obtain ⟨⟨y, c₁⟩, -, rest⟩ := bind_eq_ok.mp made
    obtain ⟨⟨z, c₂⟩, second, same⟩ := bind_eq_ok.mp rest
    cases same
    exact h.list expected c₁ z c' second

theorem Ensures.map {make : α → β} (h : f.Ensures fun x => Q (make x)) : (f.map make).Ensures Q where
  object := by
    obtain ⟨I, start, step, finish⟩ := h.object
    refine ⟨I, start, step, fun s y held made => ?_⟩
    obtain ⟨x, given, rfl⟩ := map_eq_ok.mp made
    exact finish s x held given
  list := by
    intro expected c y c' made
    obtain ⟨⟨x, c₁⟩, given, same⟩ := bind_eq_ok.mp made
    cases same
    exact h.list expected c x c' given

theorem Ensures.takeEntries {I : f.State → Prop}
    (step : ∀ s key d s', I s → f.take s key d = some (.ok s') → I s')
    {entries : List (Leaf String × Document)} {s s' : f.State} (held : I s)
    (taken : f.takeEntries s entries = .ok s') : I s' := by
  induction entries generalizing s with
  | nil => exact Except.ok.inj taken ▸ held
  | cons e rest ih =>
    obtain ⟨key, d⟩ := e
    obtain ⟨name, -, taken⟩ := bind_eq_ok.mp taken
    cases found : f.take s name d with
    | none =>
      rw [found] at taken
      obtain ⟨-, -, taken⟩ := bind_eq_ok.mp taken
      exact ih held taken
    | some r =>
      rw [found] at taken
      obtain ⟨s₁, rfl, taken⟩ := bind_eq_ok.mp taken
      exact ih (step s name d s₁ held found) taken

theorem Ensures.decode (h : f.Ensures P) {title : String} {d : Document} {x : α}
    (made : f.decode title d = .ok x) : P x := by
  obtain ⟨I, start, step, finish⟩ := h.object
  unfold Fields.decode at made
  split at made
  · obtain ⟨s, taken, made⟩ := bind_eq_ok.mp made
    obtain ⟨-, -, made⟩ := bind_eq_ok.mp made
    exact finish s x (takeEntries step start taken) made
  · exact finish f.start x start made
  · obtain ⟨⟨y, c⟩, given, rest⟩ := bind_eq_ok.mp made
    obtain ⟨-, -, same⟩ := bind_eq_ok.mp rest
    cases same
    exact h.list _ _ x c given
  · cases made

end Fields

end Nonlocal.Json
