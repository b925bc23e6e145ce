import Nonlocal.Host.Basic
import Nonlocal.Settings.Codec

/-!
Settings from a file.
-/

namespace Nonlocal

/-- Reads settings from a file, and validates them. -/
def BridgeSettings.load {m : Type → Type} [Monad m] [Host m] (path : String) :
    m (Except (Error Float) (BridgeSettings Float)) := do
  match ← Host.readText path with
  | .ok text => return BridgeSettings.ofText text
  | .error fault =>
    return .error (if fault.isAbsence then .settingsNotFound path else .inaccessible path fault)

end Nonlocal
