import Nonlocal.Proofs.Host.Files

/-!
What is relied on of a machine, and what a program does to it.

`LawfulHost` says what a program may expect of files and of a standard output: reading changes
nothing, printing only adds to the output, and writing concerns the file at its path and what shares
it. Nothing is said of when a file is readable or a write is refused. `Machine` is such a machine.

A journal stands between a program and its machine: the machine does what it did before, and what it
was made to change is written down in order. Texts that could not be written leave no trace.
-/

namespace Nonlocal

/-- A machine whose state has files and an output. -/
class LawfulHost (σ : Type) [Host (StateM σ)] where
  Files : Type
  files : σ → Files
  /-- What was printed. -/
  output : σ → String
  /-- What a program reads at a path. -/
  read : Files → (path : String) → Except FileFault String
  /-- The bytes of the file at a path. -/
  bytes : Files → (path : String) → Option ByteArray
  /-- The second path leads to the file at the first one, or through its place. -/
  Touches : Files → (path other : String) → Prop
  readText_eq (path : String) (s : σ) :
    (Host.readText path : StateM σ _) s = (read (files s) path, s)
  files_print (text : String) (s : σ) :
    files ((Host.print text : StateM σ Unit) s).2 = files s
  output_print (text : String) (s : σ) :
    output ((Host.print text : StateM σ Unit) s).2 = output s ++ text
  output_writeText (path text : String) (s : σ) :
    output ((Host.writeText path text : StateM σ _) s).2 = output s
  /-- What was written stands in the file. -/
  bytes_writeText {path text : String} {s : σ}
    (written : ((Host.writeText path text : StateM σ _) s).1 = .ok ()) :
    bytes (files ((Host.writeText path text : StateM σ _) s).2) path = some text.toUTF8
  /-- No other file is touched, even if the write fails. -/
  bytes_writeText_of_not_touches {path other text : String} {s : σ}
    (apart : ¬Touches (files s) path other) :
    bytes (files ((Host.writeText path text : StateM σ _) s).2) other = bytes (files s) other

namespace LawfulHost

variable {σ : Type} [Host (StateM σ)]

/-- The machine after a text was printed. -/
def afterPrint (s : σ) (text : String) : σ :=
  ((Host.print text : StateM σ Unit) s).2

variable [LawfulHost σ] {path other text : String} {s s' : σ} {r : Except FileFault Unit}

theorem files_afterPrint : files (afterPrint s text) = files s :=
  files_print text s

theorem output_afterPrint : output (afterPrint s text) = output s ++ text :=
  output_print text s

theorem output_of_write
    (made : (Host.writeText path text : StateM σ _) s = (r, s')) : output s' = output s := by
  have same := output_writeText path text s
  rwa [made] at same

theorem bytes_of_write
    (made : (Host.writeText path text : StateM σ _) s = (.ok (), s')) :
    bytes (files s') path = some text.toUTF8 := by
  have there := bytes_writeText (congrArg Prod.fst made)
  rwa [made] at there

theorem bytes_of_not_touches (made : (Host.writeText path text : StateM σ _) s = (r, s'))
    (apart : ¬Touches (files s) path other) :
    bytes (files s') other = bytes (files s) other := by
  have same : bytes (files ((Host.writeText path text : StateM σ _) s).2) other =
      bytes (files s) other := bytes_writeText_of_not_touches apart
  rwa [made] at same

end LawfulHost

instance : LawfulHost Machine where
  Files := FileTree
  files := Machine.files
  output := Machine.output
  read := FileTree.read
  bytes := FileTree.bytes
  Touches := FileTree.Touches
  readText_eq _ _ := rfl
  files_print _ _ := rfl
  output_print _ _ := rfl
  output_writeText _ _ _ := rfl
  bytes_writeText := FileTree.bytes_of_write
  bytes_writeText_of_not_touches := FileTree.bytes_write_of_not_touches

/-! ## Journals -/

/-- A change that a program makes to its machine. -/
inductive Effect where
  | printed (text : String)
  | wrote (path text : String)

/-- A machine, and what was done to it so far. -/
structure Journal (σ : Type) where
  machine : σ
  effects : List Effect

variable {σ : Type} [Host (StateM σ)]

/-- The entry of a write. -/
def Effect.ofWrite (path text : String) : Except FileFault Unit → List Effect
  | .ok () => [.wrote path text]
  | .error _ => []

instance : Host (StateM (Journal σ)) where
  readText path := fun j =>
    let (answer, machine) := (Host.readText path : StateM σ _) j.machine
    (answer, { j with machine })
  writeText path text := fun j =>
    let (answer, machine) := (Host.writeText path text : StateM σ _) j.machine
    (answer, ⟨machine, j.effects ++ Effect.ofWrite path text answer⟩)
  print text := fun j =>
    let ((), machine) := (Host.print text : StateM σ Unit) j.machine
    ((), ⟨machine, j.effects ++ [.printed text]⟩)

namespace Journal

variable {path text : String} {j : Journal σ}

theorem readText_eq [LawfulHost σ] (path : String) (j : Journal σ) :
    (Host.readText path : StateM (Journal σ) _) j =
      (LawfulHost.read (LawfulHost.files j.machine) path, j) := by
  change (((Host.readText path : StateM σ _) j.machine).1,
    { j with machine := ((Host.readText path : StateM σ _) j.machine).2 }) = _
  rw [LawfulHost.readText_eq]

theorem print_eq {s : σ} (printed : (Host.print text : StateM σ Unit) j.machine = ((), s)) :
    (Host.print text : StateM (Journal σ) Unit) j = ((), ⟨s, j.effects ++ [.printed text]⟩) := by
  change ((), (⟨((Host.print text : StateM σ Unit) j.machine).2, _⟩ : Journal σ)) = _
  rw [printed]

theorem writeText_eq {r : Except FileFault Unit} {s : σ}
    (wrote : (Host.writeText path text : StateM σ _) j.machine = (r, s)) :
    (Host.writeText path text : StateM (Journal σ) _) j =
      (r, ⟨s, j.effects ++ Effect.ofWrite path text r⟩) := by
  change (((Host.writeText path text : StateM σ _) j.machine).1,
    (⟨((Host.writeText path text : StateM σ _) j.machine).2, _ ++ Effect.ofWrite path text
      ((Host.writeText path text : StateM σ _) j.machine).1⟩ : Journal σ)) = _
  rw [wrote]

end Journal

end Nonlocal
