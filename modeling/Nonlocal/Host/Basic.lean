import Nonlocal.Error

/-!
What a program asks of the machine that it runs on: to read a file, to write one, and to print.
-/

namespace Nonlocal

/-- A machine with files and a standard output. -/
class Host (m : Type → Type) where
  /-- The text of a file. -/
  readText : (path : String) → m (Except FileFault String)
  /-- Replaces the content of a file, or makes it. -/
  writeText : (path text : String) → m (Except FileFault Unit)
  /-- Adds to the standard output. -/
  print : (text : String) → m Unit

/-- Does the fault mean that there is nothing at the path? -/
def FileFault.isAbsence : FileFault → Bool
  | .notFound | .notDirectory | .nameTooLong => true
  | .isDirectory | .invalidEncoding | .other _ => false

end Nonlocal
