import Nonlocal.Engine.Source
import Nonlocal.Report.Basic

/-!
The command line.

Options come before or after the name of a command, each with a value, which is the next argument or
is joined to the option by an equals sign. An argument that starts with a dash is no value of the
option before it, except for a negative whole number where the option takes such numbers. Each option
can be given once before and once after the command.
-/

namespace Nonlocal.Command

/-- The options. -/
inductive Flag where
  | engineConfig
  | configFormat
  | settings
  | shots
  | depolarizing
  | save
  | output
  deriving DecidableEq

namespace Flag

/-- The name of an option. -/
def name : Flag → String
  | .engineConfig => "engine-config"
  | .configFormat => "config-format"
  | .settings => "settings"
  | .shots => "shots"
  | .depolarizing => "depolarizing"
  | .save => "save"
  | .output => "output"

/-- Can a negative number be the next argument? -/
def takesNegative : Flag → Bool
  | .shots => true
  | _ => false

end Flag

/-- The names of the notations of a tuning; by default the file decides. -/
def formats : List (String × Option ConfigFormat) :=
  [("auto", none), ("toml", some .toml), ("yaml", some .yaml)]

/-- Reads a signed 64-bit number. -/
def readCount? (text : String) : Option Int64 :=
  let (negative, digits) := Decimal.spanSign text.toList
  if digits = [] then none
  else
    (Text.value? 10 digits).bind fun n =>
      let value : Int := if negative then -n else n
      if Int64.minValue.toInt ≤ value ∧ value ≤ Int64.maxValue.toInt then some (Int64.ofInt value)
      else none

/-- Can the option have the value? -/
def Flag.accepts : Flag → String → Bool
  | .configFormat, value => (formats.lookup value).isSome
  | .shots, value => (readCount? value).isSome
  | .depolarizing, value => (Decimal.read? value).isSome
  | .engineConfig, value | .settings, value | .save, value | .output, value => !value.isEmpty

/-- Is an argument the value of the option before it? -/
def Flag.takes (flag : Flag) (argument : String) : Bool :=
  match argument.toList with
  | '-' :: c :: rest => flag.takesNegative && (c :: rest).all Char.isDigit
  | _ => true

/-- The values of options. -/
abbrev Values := List (Flag × String)

/-- Adds the value of an option that has none yet. -/
def Values.add? (values : Values) (flag : Flag) (value : String) : Option Values :=
  if (values.lookup flag).isNone ∧ flag.accepts value then some ((flag, value) :: values) else none

/-- What an argument is. -/
inductive Argument where
  /-- An option, perhaps with a value joined to it. -/
  | flag (name : String) (value : Option String)
  /-- A letter of an option without value, or several. -/
  | letters (first : Char)
  /-- The mark after which nothing is an option. -/
  | separator
  | word (text : String)

/-- What an argument is. -/
def Argument.of (text : String) : Argument :=
  match text.toList with
  | ['-', '-'] => .separator
  | '-' :: '-' :: cs =>
    let name := String.ofList (cs.takeWhile (· ≠ '='))
    match cs.dropWhile (· ≠ '=') with
    | [] => .flag name none
    | _ :: value => .flag name (some (String.ofList value))
  | '-' :: c :: _ => .letters c
  | _ => .word text

/-- Where the options before or after a command end. -/
inductive Ending where
  /-- At a request for the version. -/
  | version
  /-- At a request for help. -/
  | help
  /-- At the name of a command, with the arguments after it. -/
  | word (text : String) (rest : List String)
  /-- With the last argument. -/
  | last

/-- Reads options until they end; `allowed` holds those that can be given here, and `named` tells
whether a version can be asked for and a command can follow. None stands for misuse. -/
def readFlags (allowed : List Flag) (named : Bool) : Values → List String → Option (Values × Ending)
  | values, [] => some (values, .last)
  | values, argument :: rest =>
    match Argument.of argument with
    | .word text => if named then some (values, .word text rest) else none
    | .separator => if rest.isEmpty && !named then some (values, .last) else none
    | .letters c =>
      if c = 'h' then some (values, .help)
      else if named ∧ c = 'V' then some (values, .version)
      else none
    | .flag name joined =>
      match allowed.find? (·.name == name), joined, rest with
      | some flag, some value, rest => do
        readFlags allowed named (← values.add? flag value) rest
      | some flag, none, value :: rest =>
        if flag.takes value then do readFlags allowed named (← values.add? flag value) rest
        else none
      | some _, none, [] => none
      | none, some _, _ => none
      | none, none, _ =>
        if name = "help" then some (values, .help)
        else if named ∧ name = "version" then some (values, .version)
        else none

/-- Where the tuning of the engine comes from. -/
structure EngineSource where
  path : Option String
  format : Option ConfigFormat

/-- A command with its options. -/
inductive Task where
  /-- Evaluates the plans of settings. -/
  | chsh (settings : String) (options : RunOptions Float) (save : Option String)
  /-- Runs the chaos engine. -/
  | ezph (settings : Option String) (options : RunOptions Float) (output : Option String)

/-- What a command line asks for. -/
inductive Request where
  | version
  | help
  | run (engine : EngineSource) (task : Task)

/-- The options that can be given before and after a command. -/
def globalFlags : List Flag := [.engineConfig, .configFormat]

/-- The settings file of a correlator run. -/
def defaultSettings : String := "target/chsh_bridge_state.json"

/-- The shot budget of a run. -/
def defaultShots : Int64 := 4096

/-- The shot budget and the noise among the values of options. -/
def Values.runOptions (values : Values) (noise : Float) : RunOptions Float where
  shots := ((values.lookup .shots).bind readCount?).getD defaultShots
  depolarizing := ((values.lookup .depolarizing).bind Decimal.read?).getD noise

/-- The source of the tuning among the values of options before and after a command; the latter
count. -/
def engineSource (before after : Values) : EngineSource :=
  let find (flag : Flag) : Option String := (after.lookup flag).or (before.lookup flag)
  { path := find .engineConfig
    format := ((find .configFormat).bind fun name => formats.lookup name).join }

/-- The options of the command with a name, and the task that their values make. -/
def task? : String → Option (List Flag × (Values → Task))
  | "chsh" => some ([.settings, .shots, .depolarizing, .save], fun values =>
      .chsh ((values.lookup .settings).getD defaultSettings) (values.runOptions 0.0)
        (values.lookup .save))
  | "ezph" => some ([.settings, .shots, .depolarizing, .output], fun values =>
      .ezph (values.lookup .settings) (values.runOptions 0.05) (values.lookup .output))
  | _ => none

/-- What the arguments ask for, or none if they are misused. -/
def Request.of? (arguments : List String) : Option Request := do
  let (before, ending) ← readFlags globalFlags true [] arguments
  match ending with
  | .version => return .version
  | .help => return .help
  | .last => none
  | .word name rest =>
    if name = "help" then
      if rest = [] ∨ rest = ["chsh"] ∨ rest = ["ezph"] ∨ rest = ["help"] then return .help else none
    else
      let (flags, make) ← task? name
      let (after, ending) ← readFlags (flags ++ globalFlags) false [] rest
      match ending with
      | .last => return .run (engineSource before after) (make after)
      | .help => return .help
      | .version | .word _ _ => none

end Nonlocal.Command
