import Nonlocal.Host.Basic

/-!
A machine as a value: its files, the directory in which a program runs, and what was printed.

A path leads from directory to directory, from the top or from the program's own directory. `follow`
finds where a path leads; `read` and `write` look at and change the one entry there, if the machine
permits it.
-/

namespace Nonlocal

/-- What stands at a place of a directory tree. -/
inductive FileEntry where
  | file (bytes : ByteArray)
  | directory

/-- What a machine does not permit. -/
structure FilePolicy where
  /-- Why the file at a place cannot be read. -/
  readFault : (place : List String) → Option FileFault
  /-- Why a text cannot be written at a place, and what stands there afterwards if the writing was
  begun. -/
  writeFault : (place : List String) → (text : String) → Option (FileFault × Option ByteArray)

/-- Everything is permitted. -/
def FilePolicy.permissive : FilePolicy :=
  ⟨fun _ => none, fun _ _ => none⟩

/-- The files of a machine, by the steps that lead to them from the top. -/
structure FileTree where
  entries : (place : List String) → Option FileEntry
  /-- The place of the program's own directory. -/
  home : List String
  policy : FilePolicy

namespace FileTree

/-- The tree with nothing but the program's own directory. -/
def empty : FileTree where
  entries place := if place = [] ∨ place = ["home"] then some .directory else none
  home := ["home"]
  policy := .permissive

/-- The tree with another entry at a place. -/
def put (t : FileTree) (place : List String) (entry : FileEntry) : FileTree :=
  { t with entries := fun other => if other = place then some entry else t.entries other }

/-- The tree with another entry at a place below the program's own directory. -/
def set (t : FileTree) (place : List String) (entry : FileEntry) : FileTree :=
  t.put (t.home ++ place) entry

/-- The number of bytes that a step of a path can have. -/
def maxNameBytes : Nat := 255

/-- The number of bytes from which on a path is too long. -/
def maxPathBytes : Nat := 4096

/-- The place that one step leads to from a directory. The top is its own parent. -/
def advance (start : List String) (step : String) : Except FileFault (List String) :=
  if step = "" ∨ step = "." then .ok start
  else if step = ".." then .ok start.dropLast
  else if maxNameBytes < step.utf8ByteSize then .error .nameTooLong
  else .ok (start ++ [step])

/-- The place that the steps of a path lead to from another place. Only the last step may lead to a
place where nothing is. -/
def follow (entries : List String → Option FileEntry) (start : List String) :
    List String → Except FileFault (List String)
  | [] => .ok start
  | step :: rest =>
    match entries start with
    | none => .error .notFound
    | some (.file _) => .error .notDirectory
    | some .directory =>
      match advance start step with
      | .ok place => follow entries place rest
      | .error fault => .error fault

/-- The place where a path starts. -/
def origin (t : FileTree) (path : String) : List String :=
  if path.front = '/' then [] else t.home

/-- The place that a path leads to. -/
def locate (t : FileTree) (path : String) : Except FileFault (List String) :=
  if path.isEmpty then .error .notFound
  else if maxPathBytes ≤ path.utf8ByteSize then .error .nameTooLong
  else follow t.entries (t.origin path) (path.splitOn "/")

/-- The text of the file at a path. -/
def read (t : FileTree) (path : String) : Except FileFault String := do
  let place ← t.locate path
  match t.entries place, t.policy.readFault place with
  | none, _ => throw .notFound
  | some _, some fault => throw fault
  | some .directory, none => throw .isDirectory
  | some (.file bytes), none =>
    match String.fromUTF8? bytes with
    | some text => return text
    | none => throw .invalidEncoding

/-- Writes a text to the file at a path: what comes of it, and the tree afterwards. -/
def write (t : FileTree) (path text : String) : Except FileFault Unit × FileTree :=
  match t.locate path with
  | .error fault => (.error fault, t)
  | .ok place =>
    match t.entries place, t.policy.writeFault place text with
    | some .directory, _ => (.error .isDirectory, t)
    | _, some (fault, none) => (.error fault, t)
    | _, some (fault, some bytes) => (.error fault, t.put place (.file bytes))
    | _, none => (.ok (), t.put place (.file text.toUTF8))

end FileTree

/-- A machine. -/
structure Machine where
  files : FileTree
  output : String

/-- A computation on a machine. -/
abbrev OnMachine := StateM Machine

instance : Host OnMachine where
  readText path := fun machine => (machine.files.read path, machine)
  writeText path text := fun machine =>
    let (answer, files) := machine.files.write path text
    (answer, { machine with files })
  print text := fun machine => ((), { machine with output := machine.output ++ text })

end Nonlocal
