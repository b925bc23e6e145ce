import Nonlocal.Host.Machine

/-!
Files that are written and read.

A write that is permitted changes the entry at one place, where no directory stands, and nothing
else. Since the steps of a path pass through directories only, the path leads to the same place as
before, and the text stands there (`FileTree.bytes_of_write`). The file at another path is the same
as before unless the path leads to that place or through it
(`FileTree.bytes_write_of_not_touches`); this holds of a write that is refused, too, even if it has
begun.
-/

namespace Nonlocal.FileTree

variable {t : FileTree} {entries : List String → Option FileEntry} {place start : List String}
  {entry : FileEntry} {path other text : String} {steps : List String}

/-- The places that steps pass through, with the one that they lead to. -/
def visits (entries : List String → Option FileEntry) (start : List String) :
    List String → List (List String)
  | [] => [start]
  | step :: rest =>
    match entries start, advance start step with
    | some .directory, .ok place => start :: visits entries place rest
    | _, _ => [start]

/-- The bytes of the file at a path. -/
def bytes (t : FileTree) (path : String) : Option ByteArray :=
  match t.locate path with
  | .error _ => none
  | .ok place =>
    match t.entries place with
    | some (.file bytes) => some bytes
    | _ => none

/-- The second path leads to the place of the first one, or through it. -/
def Touches (t : FileTree) (path other : String) : Prop :=
  ∃ place, t.locate path = .ok place ∧
    place ∈ visits t.entries (t.origin other) (other.splitOn "/")

/-! ## Another entry at a place -/

theorem put_same : (t.put place entry).entries place = some entry :=
  if_pos rfl

theorem put_of_ne {target : List String} (apart : target ≠ place) :
    (t.put place entry).entries target = t.entries target :=
  if_neg apart

theorem mem_visits_self : start ∈ visits entries start steps := by
  cases steps with
  | nil => exact List.mem_singleton.mpr rfl
  | cons step rest =>
    rw [visits]
    split
    · exact List.mem_cons_self
    · exact List.mem_singleton.mpr rfl

/-- Where no directory stands, an entry has no effect on where steps lead. -/
theorem follow_put {target : List String} (free : t.entries place ≠ some .directory)
    (led : follow t.entries start steps = .ok target) :
    follow (t.put place entry).entries start steps = .ok target := by
  induction steps generalizing start with
  | nil => exact led
  | cons step rest ih =>
    rw [follow] at led ⊢
    rcases here : t.entries start with _ | bytes | _
    · rw [here] at led
      cases led
    · rw [here] at led
      cases led
    · have apart : start ≠ place := by
        rintro rfl
        exact free here
      rw [here] at led
      rw [put_of_ne apart, here]
      rcases next : advance start step with fault | inner
      · rw [next] at led
        cases led
      · rw [next] at led
        exact ih led

/-- An entry that steps do not pass has no effect on them. -/
theorem follow_put_of_not_mem (aside : place ∉ visits t.entries start steps) :
    follow (t.put place entry).entries start steps = follow t.entries start steps := by
  induction steps generalizing start with
  | nil => rfl
  | cons step rest ih =>
    have apart : start ≠ place := by
      rintro rfl
      exact aside mem_visits_self
    rw [follow, follow, put_of_ne apart]
    rcases here : t.entries start with _ | bytes | _
    · rfl
    · rfl
    · rcases next : advance start step with fault | inner
      · rfl
      · rw [visits, here, next] at aside
        exact ih fun inside => aside (List.mem_cons_of_mem _ inside)

theorem mem_visits_of_follow {target : List String}
    (led : follow entries start steps = .ok target) : target ∈ visits entries start steps := by
  induction steps generalizing start with
  | nil =>
    cases led
    exact mem_visits_self
  | cons step rest ih =>
    rw [follow] at led
    rcases here : entries start with _ | bytes | _
    · rw [here] at led
      cases led
    · rw [here] at led
      cases led
    · rw [here] at led
      rcases next : advance start step with fault | inner
      · rw [next] at led
        cases led
      · rw [next] at led
        rw [visits, here, next]
        exact List.mem_cons_of_mem _ (ih led)

theorem locate_eq_ok_iff : t.locate path = .ok place ↔
    path.isEmpty = false ∧ path.utf8ByteSize < maxPathBytes ∧
      follow t.entries (t.origin path) (path.splitOn "/") = .ok place := by
  unfold locate
  split
  · next empty => simp [empty]
  · next some_step =>
    split
    · next long => simp [Nat.not_lt.mpr long]
    · next short => simp [some_step, Nat.not_le.mp short]

theorem locate_put {target : List String} (free : t.entries place ≠ some .directory)
    (led : t.locate path = .ok target) : (t.put place entry).locate path = .ok target := by
  rcases locate_eq_ok_iff.mp led with ⟨some_step, short, led⟩
  exact locate_eq_ok_iff.mpr ⟨some_step, short, follow_put free led⟩

theorem bytes_put_of_not_mem
    (aside : place ∉ visits t.entries (t.origin other) (other.splitOn "/")) :
    (t.put place entry).bytes other = t.bytes other := by
  have same : (t.put place entry).locate other = t.locate other := by
    unfold locate
    rw [show (t.put place entry).origin other = t.origin other from rfl,
      follow_put_of_not_mem aside]
  unfold bytes
  rw [same]
  rcases led : t.locate other with fault | target
  · rfl
  · have passed := mem_visits_of_follow (locate_eq_ok_iff.mp led).2.2
    have apart : target ≠ place := by
      rintro rfl
      exact aside passed
    dsimp only
    rw [put_of_ne apart]

/-- What a write can do: leave the tree as it is, or set the entry at the place of its path, where
no directory stands. Only a text that is permitted is set as it is. -/
theorem write_cases (t : FileTree) (path text : String) :
    (∃ fault, t.write path text = (.error fault, t)) ∨
    ∃ place, t.locate path = .ok place ∧ t.entries place ≠ some .directory ∧
      ((∃ fault rest, t.write path text = (.error fault, t.put place (.file rest))) ∨
        t.write path text = (.ok (), t.put place (.file text.toUTF8))) := by
  unfold write
  rcases led : t.locate path with fault | place
  · exact .inl ⟨fault, rfl⟩
  · dsimp only
    split
    · exact .inl ⟨_, rfl⟩
    · exact .inl ⟨_, rfl⟩
    · next free => exact .inr ⟨place, rfl, free, .inl ⟨_, _, rfl⟩⟩
    · next free => exact .inr ⟨place, rfl, free, .inr rfl⟩

theorem bytes_of_write (written : (t.write path text).1 = .ok ()) :
    (t.write path text).2.bytes path = some text.toUTF8 := by
  rcases t.write_cases path text with ⟨fault, same⟩ | ⟨place, led, free, ⟨fault, rest, same⟩ |
    same⟩
  · rw [same] at written
    cases written
  · rw [same] at written
    cases written
  · rw [same]
    unfold bytes
    rw [locate_put free led]
    dsimp only
    rw [put_same]

theorem bytes_write_of_not_touches (apart : ¬t.Touches path other) :
    (t.write path text).2.bytes other = t.bytes other := by
  rcases t.write_cases path text with ⟨fault, same⟩ | ⟨place, led, -, ⟨fault, rest, same⟩ | same⟩
  · rw [same]
  · rw [same]
    exact bytes_put_of_not_mem fun passed => apart ⟨place, led, passed⟩
  · rw [same]
    exact bytes_put_of_not_mem fun passed => apart ⟨place, led, passed⟩

end Nonlocal.FileTree
