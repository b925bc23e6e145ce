import Nonlocal.Json.Reader

/-!
What holds of every document that is read from a text.

Reading goes through values, items and entries by turns and stops in many places. A property that
holds of the leaves as they are read, and of a list or an object whenever it holds of its parts,
however these end (`Document.IsInherited`), holds wherever the reading stops
(`Document.IsInherited.read`).
-/

namespace Nonlocal.Json.Document

/-- The property holds of the leaves that are read, and passes from parts to the whole. -/
structure IsInherited (P : Document → Prop) : Prop where
  absent (fault : Fault) : P (.absent fault)
  misspelt (fault : Fault) : P (.misspelt fault)
  null : P .null
  boolean (b : Bool) : P (.boolean b)
  number (cs : List Char) : P (.number (NumberParts.read cs).1)
  string (leaf : Leaf String) : P (.string leaf)
  list {items : List Document} (close : ListEnd) : (∀ d ∈ items, P d) → P (.list items close)
  object {entries : List (Leaf String × Document)} (close : ObjectEnd) :
    (∀ e ∈ entries, P e.2) → P (.object entries close)

namespace IsInherited

variable {P : Document → Prop} (inherited : IsInherited P)

include inherited

theorem readWord {word : Document} (held : P word) (letters cs : List Char) :
    P (Document.readWord word letters cs).1 := by
  induction letters generalizing cs with
  | nil => exact held
  | cons l letters ih =>
    cases cs with
    | nil => exact inherited.misspelt _
    | cons c rest =>
      rw [Document.readWord]
      split
      · exact ih rest
      · exact inherited.misspelt _

theorem list_reverse {acc : List Document} (held : ∀ d ∈ acc, P d) (close : ListEnd) :
    P (.list acc.reverse close) :=
  inherited.list close fun d inside => held d (List.mem_reverse.mp inside)

theorem object_reverse {acc : List (Leaf String × Document)} (held : ∀ e ∈ acc, P e.2)
    (close : ObjectEnd) : P (.object acc.reverse close) :=
  inherited.object close fun e inside => held e (List.mem_reverse.mp inside)

mutual

theorem readValue (fuel : Nat) (cs : List Char) : P (Document.readValue fuel cs).1 := by
  cases fuel with
  | zero =>
    rw [Document.readValue]
    exact inherited.absent _
  | succ fuel =>
    rw [Document.readValue]
    split
    · exact inherited.absent _
    · exact inherited.readWord inherited.null _ _
    · exact inherited.readWord (inherited.boolean _) _ _
    · exact inherited.readWord (inherited.boolean _) _ _
    · exact inherited.string _
    · split
      · exact inherited.list _ (List.forall_mem_nil _)
      · exact inherited.list _ (List.forall_mem_nil _)
      · exact readItems fuel _ (List.forall_mem_nil _)
    · exact readEntries fuel _ _ (List.forall_mem_nil _)
    · split
      · exact inherited.number _
      · exact inherited.misspelt _

theorem readItems (fuel : Nat) (cs : List Char) {acc : List Document} (held : ∀ d ∈ acc, P d) :
    P (Document.readItems fuel cs acc).1 := by
  cases fuel with
  | zero =>
    rw [Document.readItems]
    exact inherited.list_reverse held _
  | succ fuel =>
    have more : ∀ d ∈ (Document.readValue fuel cs).1 :: acc, P d :=
      List.forall_mem_cons.mpr ⟨readValue fuel cs, held⟩
    rw [Document.readItems]
    dsimp only
    split
    · exact inherited.list_reverse more _
    · exact inherited.list_reverse more _
    · exact inherited.list_reverse more _
    · split
      · exact inherited.list_reverse more _
      · exact readItems fuel _ more
    · exact inherited.list_reverse more _

theorem readEntries (fuel : Nat) (cs : List Char) (first : Bool)
    {acc : List (Leaf String × Document)} (held : ∀ e ∈ acc, P e.2) :
    P (Document.readEntries fuel cs acc first).1 := by
  cases fuel with
  | zero =>
    rw [Document.readEntries]
    exact inherited.object_reverse held _
  | succ fuel =>
    have more {key : Leaf String} {d : Document} (value : P d) :
        ∀ e ∈ (key, d) :: acc, P e.2 := List.forall_mem_cons.mpr ⟨value, held⟩
    have later (rest : List Char) : P (Document.readValue fuel rest).1 := readValue fuel rest
    unfold Document.readEntries
    split
    · exact inherited.object_reverse held _
    · exact inherited.object_reverse held _
    · split
      · exact inherited.object_reverse held _
      · exact inherited.object_reverse held _
    · next same =>
      cases same
      dsimp only
      split
      · exact inherited.object_reverse (more (inherited.absent _)) _
      · exact inherited.object_reverse (more (inherited.absent _)) _
      · split
        · exact inherited.object_reverse (more (later _)) _
        · exact inherited.object_reverse (more (later _)) _
        · exact inherited.object_reverse (more (later _)) _
        · exact readEntries fuel _ _ (more (later _))
        · exact inherited.object_reverse (more (later _)) _
      · exact inherited.object_reverse (more (inherited.absent _)) _
    · exact inherited.object_reverse held _

end

/-- An inherited property holds of whatever is read. -/
theorem read (content : String) : P (Document.read content).1 :=
  inherited.readValue _ _

end IsInherited

end Nonlocal.Json.Document
