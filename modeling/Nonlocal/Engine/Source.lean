import Nonlocal.Engine.Codec
import Nonlocal.Host.Basic
import Nonlocal.Toml.Reader
import Nonlocal.Yaml.Reader

/-!
Where the tuning of the engine comes from: a text in one of two notations, or a file with one.

The notation of a file follows from its name unless it is given. Without a file the standard tuning
is used.
-/

namespace Nonlocal

/-- A notation for the tuning. -/
inductive ConfigFormat where
  | toml
  | yaml
  deriving DecidableEq

/-- The name of a notation in messages. -/
def ConfigFormat.name : ConfigFormat → String
  | .toml => "Toml"
  | .yaml => "Yaml"

/-- Why there is no tuning. -/
inductive ConfigFault (K : Type) where
  | unreadable (path : String) (fault : FileFault)
  /-- The text does not follow its notation, or is no tuning. -/
  | unparsable (format : ConfigFormat)
  | invalid (error : Error K)

/-- The message of a fault. -/
def ConfigFault.message : ConfigFault Float → String
  | .unreadable path fault => s!"unable to read engine config {path}: {fault.message}"
  | .unparsable format => s!"failed to parse {format.name} engine config"
  | .invalid error => s!"engine configuration invalid: {error.message}"

/-- The name at the end of a path. -/
def fileName? (path : String) : Option String :=
  ((path.splitOn "/").filter fun step => step ≠ "" ∧ step ≠ ".").getLast?.filter (· ≠ "..")

/-- What follows the last point of a name, unless the name starts with that point. -/
def extension? (name : String) : Option String :=
  let after := name.toList.reverse.takeWhile (· ≠ '.')
  match name.toList.reverse.drop after.length with
  | _ :: _ :: _ => some (String.ofList after.reverse)
  | _ => none

/-- The notation of a file, by its name. -/
def ConfigFormat.ofPath (path : String) : ConfigFormat :=
  match (fileName? path).bind extension? with
  | some "yaml" | some "yml" => .yaml
  | _ => .toml

/-- The document of a text in a notation. -/
def ConfigFormat.document? : ConfigFormat → String → Option Json.Document
  | .toml => Toml.read?
  | .yaml => Yaml.read?

namespace EngineConfig

/-- Reads the tuning from a text, and validates it. -/
def ofText (format : ConfigFormat) (text : String) :
    Except (ConfigFault Float) (EngineConfig Float) := do
  match (format.document? text).map decode with
  | some (.ok config) =>
    match config.validate with
    | .ok () => return config
    | .error error => throw (.invalid error)
  | _ => throw (.unparsable format)

/-- Reads the tuning from a file, if one is given. -/
def load {m : Type → Type} [Monad m] [Host m] (path : Option String)
    (format : Option ConfigFormat) : m (Except (ConfigFault Float) (EngineConfig Float)) := do
  match path with
  | none => return .ok .standard
  | some path =>
    match ← Host.readText path with
    | .error fault => return .error (.unreadable path fault)
    | .ok text => return ofText (format.getD (.ofPath path)) text

end EngineConfig

end Nonlocal
