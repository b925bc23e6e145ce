import Nonlocal.Proofs.Binary64.Probability
import Nonlocal.Proofs.Chaos.Seed
import Nonlocal.Proofs.Chaos.Window
import Nonlocal.Proofs.Command.Flow
import Nonlocal.Proofs.Report.Rendering
import Nonlocal.Proofs.Run.Failure

/-!
What a command needs, and what comes of its run.

Everything that a command needs is read before it does anything: the tuning, the settings, and what
its run asks of them (`Command.Ready`). Then the run has a report, unless the steps of an
integration do not fit into a word or a draw is no count, which ends the program
(`Command.Task.runs_cases`). A command that has something to show was ready
(`Command.exists_ready_of_present`).
-/

namespace Nonlocal

/-! ## What is found -/

/-- What can be read holds the tuning that is asked for: it follows its notation, and it is valid.
Where none is asked for, it is the standard tuning. -/
def Command.EngineSource.Gives (read : String → Except FileFault String) (source : EngineSource)
    (config : EngineConfig Float) : Prop :=
  match source.path with
  | none => config = .standard
  | some path => ∃ text d, read path = .ok text ∧
      (source.format.getD (.ofPath path)).document? text = some d ∧
      EngineConfig.decode d = .ok config ∧ config.validate = .ok ()

/-- There is a file with these settings, which are valid. -/
def BridgeSettings.Stored (read : String → Except FileFault String) (path : String)
    (s : BridgeSettings Float) : Prop :=
  ∃ text, read path = .ok text ∧ Json.decodeText decode text = .ok s ∧ s.validate = .ok ()

namespace EngineConfig

theorem ofText_eq_ok_iff {format : ConfigFormat} {text : String} {config : EngineConfig Float} :
    ofText format text = .ok config ↔ ∃ d, format.document? text = some d ∧
      decode d = .ok config ∧ config.validate = .ok () := by
  unfold ofText
  rcases format.document? text with _ | d
  · exact ⟨nofun, fun ⟨_, absent, _⟩ => nomatch absent⟩
  · rcases made : decode d with fault | found
    · simp [made]
    · rcases valid : found.validate with e | _
      · simp only [Option.map_some, made, valid]
        refine ⟨nofun, ?_⟩
        rintro ⟨_, same, decoded, accepted⟩
        cases same
        cases made.symm.trans decoded
        cases valid.symm.trans accepted
      · simp only [Option.map_some, made, valid]
        constructor
        · intro same
          cases same
          exact ⟨d, rfl, made, valid⟩
        · rintro ⟨_, same, decoded, -⟩
          cases same
          cases made.symm.trans decoded
          rfl

theorem find_eq_ok_iff {read : String → Except FileFault String} {source : Command.EngineSource}
    {config : EngineConfig Float} : find read source = .ok config ↔ source.Gives read config := by
  unfold find Command.EngineSource.Gives
  rcases source.path with _ | path
  · exact ⟨fun found => (Except.ok.inj found).symm, fun same => congrArg _ same.symm⟩
  · dsimp only
    rcases read path with fault | text
    · exact ⟨nofun, fun ⟨_, _, absent, _⟩ => nomatch absent⟩
    · refine ofText_eq_ok_iff.trans ⟨fun ⟨d, held⟩ => ⟨text, d, rfl, held⟩, ?_⟩
      rintro ⟨_, d, same, held⟩
      cases same
      exact ⟨d, held⟩

end EngineConfig

theorem BridgeSettings.find_eq_ok_iff {read : String → Except FileFault String} {path : String}
    {s : BridgeSettings Float} : find read path = .ok s ↔ Stored read path s := by
  unfold find Stored
  rcases read path with fault | text
  · exact ⟨nofun, fun ⟨_, absent, _⟩ => nomatch absent⟩
  · refine ofText_eq_ok_iff.trans ⟨fun held => ⟨text, rfl, held⟩, ?_⟩
    rintro ⟨_, same, held⟩
    cases same
    exact held

namespace Command

/-! ## Tasks -/

namespace Task

/-- The file with the settings of a task. -/
def settingsPath : Task → Option String
  | .chsh path .. => some path
  | .ezph path .. => path

/-- The file for the record of a task. -/
def destination : Task → Option String
  | .chsh _ _ save => save
  | .ezph _ _ output => output

/-- What is said of the record once it is written. -/
def notice : Task → String
  | .chsh .. => "\nSaved summary to "
  | .ezph .. => "Saved report to "

/-- What a task has to show of a report. -/
def presentation (task : Task) (r : Rendering) : Presentation :=
  ⟨r.summary, r.record, task.destination, task.notice⟩

/-- What can be read holds the settings of a task, if it has any. -/
def Finds (read : String → Except FileFault String) (settings : Option (BridgeSettings Float))
    (task : Task) : Prop :=
  match task.settingsPath with
  | none => settings = none
  | some path => ∃ s, settings = some s ∧ BridgeSettings.Stored read path s

/-- What the run of a task asks of its settings: a correlator run needs a plan, and a chaos run a
hexadecimal seed. -/
def Admits (settings : Option (BridgeSettings Float)) : Task → Prop
  | .chsh .. => ∃ s plan rest, settings = some s ∧ s.plans = .ok (plan :: rest)
  | .ezph .. => Seed.IsHexadecimal ((settings.map BridgeSettings.seed).getD Run.fallbackSeed)

/-- The run of a task integrates over a window whose steps do not fit into a word. -/
def Overflows (config : EngineConfig Float) : Task → Prop
  | .chsh .. => False
  | .ezph .. => ¬(config.chaos.lorenzSpan.IsCountable ∧ config.chaos.chuaSpan.IsCountable)

/-- What comes of the run of a task. A correlator run needs settings. -/
def Runs (config : EngineConfig Float) (settings : Option (BridgeSettings Float))
    (result : Except (Error Float) Rendering) : Task → Prop
  | .chsh _ options _ => ∃ s, settings = some s ∧ result =
      ((Run.sandbox s options).run (.ofSeed config.sandboxSeed)).1.map (·.rendering s)
  | .ezph _ options _ => result =
      ((Run.simulate config config.chaos.engine settings options).run
        (.ofSeed config.ezphSeed)).1.map EzphReport.rendering

/-- The error of a program that ends on the spot. -/
abbrev ended (cause : Panic) : Error Float :=
  .sampling (.panic cause)

variable {read : String → Except FileFault String} {task : Task} {config : EngineConfig Float}
  {settings : Option (BridgeSettings Float)} {result : Except (Error Float) Rendering}

theorem Runs.isFaithful {r : Rendering} (ran : task.Runs config settings (.ok r)) :
    r.IsFaithful := by
  rcases task with ⟨path, options, save⟩ | ⟨path, options, save⟩
  · rcases ran with ⟨s, -, made⟩
    rcases Json.map_eq_ok.mp made.symm with ⟨report, -, rfl⟩
    exact report.isFaithful_rendering s
  · rcases Json.map_eq_ok.mp (Eq.symm ran) with ⟨report, -, rfl⟩
    exact report.isFaithful_rendering

/-- The steps of the standard tuning fit into words. -/
theorem not_overflows_standard (task : Task) : ¬task.Overflows .standard := by
  rcases task with ⟨path, options, save⟩ | ⟨path, options, output⟩
  · exact not_false
  · have lorenz : (ChaosConfig.standard : ChaosConfig Float).lorenzSpan.stepCount < 2 ^ 64 := by
      decide
    have chua : (ChaosConfig.standard : ChaosConfig Float).chuaSpan.stepCount < 2 ^ 64 := by decide
    exact fun exceeds => exceeds ⟨lorenz, chua⟩

theorem runs_chsh {s : BridgeSettings Float} {path : String} {options : RunOptions Float}
    {save : Option String} {x : Except (Error Float) (SandboxReport Float)} {g : Generator}
    (ran : (Run.sandbox s options).run (.ofSeed config.sandboxSeed) = (x, g)) :
    (chsh path options save).Runs config (some s) (x.map (·.rendering s)) := by
  refine ⟨s, rfl, ?_⟩
  rw [ran]

theorem runs_ezph {path output : Option String} {options : RunOptions Float}
    {x : Except (Error Float) (EzphReport Float)} {g : Generator}
    (ran : (Run.simulate config config.chaos.engine settings options).run
      (.ofSeed config.ezphSeed) = (x, g)) :
    (ezph path options output).Runs config settings (x.map EzphReport.rendering) := by
  change _ = Except.map _ _
  rw [ran]

/-- The run of a task whose settings are as they should be has a report, or it ends the program: if
the steps of an integration do not fit into a word, or if a draw is no count. -/
theorem runs_cases (admitted : task.Admits settings) (config : EngineConfig Float) :
    (task.Overflows config ∧ task.Runs config settings (.error (ended .stepOverflow))) ∨
    ¬task.Overflows config ∧ ((∃ r, task.Runs config settings (.ok r)) ∨
      ¬HasCounts Float ∧ ∃ cause, task.Runs config settings (.error (ended cause))) := by
  rcases task with ⟨path, options, save⟩ | ⟨path, options, output⟩
  · rcases admitted with ⟨s, plan, rest, rfl, plans⟩
    rcases Run.exists_yields_sandbox options plans (List.cons_ne_nil _ _) with ⟨v, yields, -⟩
    refine .inr ⟨not_false, ?_⟩
    rcases yields (.ofSeed config.sandboxSeed) with ran | ⟨broken, cause, g, ran⟩
    · exact .inl ⟨_, runs_chsh ran⟩
    · exact .inr ⟨broken, cause, runs_chsh ran⟩
  · rcases (Seed.exists_fraction_iff (K := Float)).mpr admitted with ⟨fraction, found⟩
    by_cases counted :
      config.chaos.lorenzSpan.IsCountable ∧ config.chaos.chuaSpan.IsCountable
    · have moved := ChaosConfig.engine_of_isCountable counted.1 counted.2 fraction
      rcases Run.exists_yields_simulate found moved options with ⟨c, yields⟩
      refine .inr ⟨fun exceeds => exceeds counted, ?_⟩
      rcases yields config options.shots (.ofSeed config.ezphSeed) with
        ran | ⟨broken, cause, g, ran⟩
      · exact .inl ⟨_, runs_ezph ran⟩
      · exact .inr ⟨broken, cause, runs_ezph ran⟩
    · have moved := ChaosConfig.engine_of_not_isCountable counted fraction
      exact .inl ⟨counted, runs_ezph (Run.run_simulate_of_panic found moved config _)⟩

/-- A task presents what comes of its run. -/
theorem present_of_runs (found : task.Finds read settings)
    (ran : task.Runs config settings result) :
    task.present read config = result.map task.presentation := by
  rcases task with ⟨path, options, save⟩ | ⟨path, options, output⟩
  · rcases ran with ⟨s, rfl, rfl⟩
    rcases found with ⟨_, same, stored⟩
    cases same
    simp only [present]
    rw [BridgeSettings.find_eq_ok_iff.mpr stored]
    change ((Run.sandbox s options).run _).1 >>= _ = _
    rcases ((Run.sandbox s options).run _).1 with e | report <;> rfl
  · cases ran
    have presented (x : Except (Error Float) (EzphReport Float)) :
        (x >>= fun r => pure ⟨r.summary, r.toJson, output, "Saved report to "⟩) =
          (x.map EzphReport.rendering).map (presentation (ezph path options output)) := by
      rcases x with e | r <;> rfl
    rcases path with _ | path
    · cases found
      exact presented _
    · rcases found with ⟨s, rfl, stored⟩
      simp only [present]
      rw [BridgeSettings.find_eq_ok_iff.mpr stored]
      exact presented _

end Task

section Readiness

variable {read : String → Except FileFault String} {engine : EngineSource} {task : Task}
  {config : EngineConfig Float} {settings : Option (BridgeSettings Float)}
  {result : Except (Error Float) Rendering}

/-- A command finds its tuning and its settings, and these are as its run asks. -/
structure Ready (read : String → Except FileFault String) (engine : EngineSource) (task : Task)
    (config : EngineConfig Float) (settings : Option (BridgeSettings Float)) : Prop where
  tuning : engine.Gives read config
  found : task.Finds read settings
  admitted : task.Admits settings

/-- A command that is ready presents what comes of its run. -/
theorem Ready.present (ready : Ready read engine task config settings)
    (ran : task.Runs config settings result) :
    present read engine task = (result.map task.presentation).mapError .run := by
  unfold Command.present
  rw [EngineConfig.find_eq_ok_iff.mpr ready.tuning]
  change (task.present read config).mapError Failure.run = _
  rw [Task.present_of_runs ready.found ran]

/-- A chaos run without files is ready. -/
theorem ready_standard (read : String → Except FileFault String) (format : Option ConfigFormat)
    (options : RunOptions Float) (output : Option String) :
    Ready read ⟨none, format⟩ (.ezph none options output) .standard none :=
  ⟨rfl, rfl, Seed.exists_fraction_iff.mp ⟨(_ : Float), rfl⟩⟩

end Readiness

end Command

end Nonlocal
