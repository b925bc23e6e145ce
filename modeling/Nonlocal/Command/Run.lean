import Nonlocal.Command.Line
import Nonlocal.Linear.Binary64
import Nonlocal.Json.Writer
import Nonlocal.Report.Codec
import Nonlocal.Report.Summary
import Nonlocal.Run.Ezph
import Nonlocal.Run.Sandbox
import Nonlocal.Settings.Source

/-!
What a command line does: the tuning is read first, then the settings; the summary of the run is
printed, and only then the record is written, if one is asked for.
-/

namespace Nonlocal.Command

/-- Why a command fails. -/
inductive Failure where
  | config (fault : ConfigFault Float)
  | run (error : Error Float)

/-- The message of a failure. -/
def Failure.message : Failure → String
  | .config fault => fault.message
  | .run error => error.message

/-- How a command line ends. -/
inductive Outcome where
  | done
  | failed (failure : Failure)
  | misused

/-- Does the program end on the spot? -/
def Failure.isPanic : Failure → Bool
  | .config _ => false
  | .run error => error.isPanic

/-- The exit code of an outcome. -/
def Outcome.exitCode : Outcome → UInt32
  | .done => 0
  | .failed failure => if failure.isPanic then 101 else 1
  | .misused => 2

/-- The program with its version, as it is printed. -/
def versionLine : String := "pqcnet-chsh-sandbox 0.1.0\n"

/-- How the program is called, as it is printed. -/
def usage : String :=
  unlines ["Usage: pqcnet-chsh-sandbox [OPTIONS] <COMMAND>", "", "Commands:",
    "  chsh  --settings <PATH> --shots <N> --depolarizing <P> --save <PATH>",
    "  ezph  --settings <PATH> --shots <N> --depolarizing <P> --output <PATH>", "", "Options:",
    "  --engine-config <PATH>", "  --config-format <auto|toml|yaml>", "  -h, --help",
    "  -V, --version"]

variable {m : Type → Type} [Monad m] [Host m]

/-- Raises the error of a step of the library. -/
def attempt {α : Type} (step : m (Except (Error Float) α)) : ExceptT Failure m α := do
  match ← (step : m (Except (Error Float) α)) with
  | .ok x => return x
  | .error e => throw (.run e)

/-- Writes a record to a file. -/
def writeRecord (path : String) (record : Json) : m (Except (Error Float) Unit) := do
  match ← Host.writeText path (Json.pretty 0 record) with
  | .ok () => return .ok ()
  | .error fault => return .error (.inaccessible path fault)

/-- Prints a summary, then writes the record where it is asked for and says so. -/
def publish (summary : String) (record : Json) (path : Option String) (notice : String) :
    ExceptT Failure m Unit := do
  (Host.print summary : m Unit)
  match path with
  | none => return
  | some path =>
    attempt (writeRecord path record)
    (Host.print (notice ++ path ++ "\n") : m Unit)

/-- Performs a task. -/
def Task.perform (config : EngineConfig Float) : Task → ExceptT Failure m Unit
  | .chsh path options save => do
    let settings ← attempt (BridgeSettings.load path)
    let generator := Generator.ofSeed config.sandboxSeed
    let report ← attempt (pure ((Run.sandbox settings options).run generator).1)
    publish (report.summary settings) report.toJson save "\nSaved summary to "
  | .ezph path options output => do
    let settings ← match path with
      | none => pure none
      | some path => some <$> attempt (BridgeSettings.load path)
    let generator := Generator.ofSeed config.ezphSeed
    let engine := config.chaos.engine
    let report ← attempt (pure ((Run.simulate config engine settings options).run generator).1)
    publish report.summary report.toJson output "Saved report to "

/-- Reads the tuning and performs a task with it. -/
def performWith (engine : EngineSource) (task : Task) : ExceptT Failure m Unit := do
  match ← (EngineConfig.load engine.path engine.format : m _) with
  | .error fault => throw (.config fault)
  | .ok config => task.perform config

/-- Does what the arguments ask for. -/
def run (arguments : List String) : m Outcome := do
  match Request.of? arguments with
  | none => return .misused
  | some .version =>
    Host.print versionLine
    return .done
  | some .help =>
    Host.print usage
    return .done
  | some (.run engine task) =>
    match ← (performWith engine task).run with
    | .ok () => return .done
    | .error failure => return .failed failure

end Nonlocal.Command
