import Nonlocal.Command.Run
import Nonlocal.Proofs.Json.Fields

/-!
The flow of a command.

Up to its result a command only reads: what it finds is a function of what can be read
(`Command.present`), and it leaves its machine as it was (`Command.run_performWith`). What comes
after is the publication of the result.
-/

namespace Nonlocal

/-- What comes of reading the tuning. -/
def EngineConfig.find (read : String → Except FileFault String) (source : Command.EngineSource) :
    Except (ConfigFault Float) (EngineConfig Float) :=
  match source.path with
  | none => .ok .standard
  | some path =>
    match read path with
    | .error fault => .error (.unreadable path fault)
    | .ok text => ofText (source.format.getD (.ofPath path)) text

/-- What comes of reading settings. -/
def BridgeSettings.find (read : String → Except FileFault String) (path : String) :
    Except (Error Float) (BridgeSettings Float) :=
  match read path with
  | .ok text => ofText text
  | .error fault =>
    .error (if fault.isAbsence then .settingsNotFound path else .inaccessible path fault)

namespace Command

/-- What a command has to show, and where. -/
structure Presentation where
  summary : String
  record : Json
  path : Option String
  notice : String

/-- What a task has to show with a tuning. -/
def Task.present (read : String → Except FileFault String) (config : EngineConfig Float) :
    Task → Except (Error Float) Presentation
  | .chsh path options save => do
    let settings ← BridgeSettings.find read path
    let report ← ((Run.sandbox settings options).run (.ofSeed config.sandboxSeed)).1
    return ⟨report.summary settings, report.toJson, save, "\nSaved summary to "⟩
  | .ezph path options output => do
    let settings ← match path with
      | none => pure none
      | some path => some <$> BridgeSettings.find read path
    let engine := config.chaos.engine
    let report ← ((Run.simulate config engine settings options).run (.ofSeed config.ezphSeed)).1
    return ⟨report.summary, report.toJson, output, "Saved report to "⟩

/-- What a command has to show. -/
def present (read : String → Except FileFault String) (engine : EngineSource) (task : Task) :
    Except Failure Presentation := do
  let config ← (EngineConfig.find read engine).mapError .config
  (task.present read config).mapError .run

/-! ## Reading -/

section Steps

variable {σ α β : Type}

theorem run_bind_of_eq {x : StateM σ α} {f : α → StateM σ β} {s s' : σ} {a : α}
    (h : x s = (a, s')) : (x >>= f) s = f a s' := by
  change f (x s).1 (x s).2 = _
  rw [h]

theorem run_attempt (step : StateM σ (Except (Error Float) α)) :
    (attempt step).run = step >>= fun r => pure (r.mapError .run) := by
  unfold attempt
  rw [ExceptT.run_bind, ExceptT.run_liftM, bind_map_left]
  exact bind_congr fun | .ok _ => rfl | .error _ => rfl

variable {step : StateM σ (Except (Error Float) α)} {f : α → ExceptT Failure (StateM σ) β}
  {s s' : σ}

theorem run_attempt_ok {a : α} (h : step s = (.ok a, s')) :
    (attempt step >>= f).run s = (f a).run s' := by
  rw [ExceptT.run_bind, run_attempt, bind_assoc, run_bind_of_eq h]
  rfl

theorem run_attempt_error {e : Error Float} (h : step s = (.error e, s')) :
    (attempt step >>= f).run s = (.error (.run e), s') := by
  rw [ExceptT.run_bind, run_attempt, bind_assoc, run_bind_of_eq h]
  rfl

/-- A result that does not depend on the machine decides whether it is gone on. -/
theorem run_evaluated (r : Except (Error Float) α) (show_ : α → Presentation) (s : σ)
    [Host (StateM σ)] :
    (do
      let report ← attempt (pure r)
      let p := show_ report
      publish p.summary p.record p.path p.notice : ExceptT Failure (StateM σ) Unit).run s =
      match r >>= fun report => pure (show_ report) with
      | .ok p =>
        (publish p.summary p.record p.path p.notice : ExceptT Failure (StateM σ) Unit).run s
      | .error e => (.error (.run e), s) := by
  cases r with
  | error e => exact run_attempt_error rfl
  | ok a => exact run_attempt_ok rfl

end Steps

section Reading

variable {σ : Type} [Host (StateM σ)] {read : σ → String → Except FileFault String}
  (reads : ∀ path s, (Host.readText path : StateM σ _) s = (read s path, s))

include reads

theorem run_load_engine (source : EngineSource) (s : σ) :
    (EngineConfig.load source.path source.format : StateM σ _) s =
      (EngineConfig.find (read s) source, s) := by
  unfold EngineConfig.load EngineConfig.find
  cases source.path with
  | none => rfl
  | some path =>
    dsimp only
    rw [run_bind_of_eq (reads path s)]
    cases read s path with
    | error fault => rfl
    | ok text => rfl

theorem run_load_settings (path : String) (s : σ) :
    (BridgeSettings.load path : StateM σ _) s = (BridgeSettings.find (read s) path, s) := by
  unfold BridgeSettings.load BridgeSettings.find
  rw [run_bind_of_eq (reads path s)]
  cases read s path with
  | error fault => rfl
  | ok text => rfl

/-- A task finds what it has to show and publishes it, or it fails and leaves its machine as it
was. -/
theorem run_perform (config : EngineConfig Float) (task : Task) (s : σ) :
    (task.perform config : ExceptT Failure (StateM σ) Unit).run s =
      match task.present (read s) config with
      | .ok p =>
        (publish p.summary p.record p.path p.notice : ExceptT Failure (StateM σ) Unit).run s
      | .error e => (.error (.run e), s) := by
  cases task with
  | chsh path options save =>
    have loaded := run_load_settings reads path s
    simp only [Task.perform, Task.present]
    cases found : BridgeSettings.find (read s) path with
    | error e =>
      rw [found] at loaded
      rw [run_attempt_error loaded]
      rfl
    | ok settings =>
      rw [found] at loaded
      rw [run_attempt_ok loaded]
      exact run_evaluated ((Run.sandbox settings options).run _).1 (fun report =>
        ⟨report.summary settings, report.toJson, save, "\nSaved summary to "⟩) s
  | ezph path options output =>
    cases path with
    | none =>
      simp only [Task.perform, Task.present]
      exact run_evaluated ((Run.simulate config _ none options).run _).1 (fun report =>
        ⟨report.summary, report.toJson, output, "Saved report to "⟩) s
    | some path =>
      have loaded := run_load_settings reads path s
      simp only [Task.perform, Task.present]
      cases found : BridgeSettings.find (read s) path with
      | error e =>
        rw [found] at loaded
        rw [bind_map_left, run_attempt_error loaded]
        rfl
      | ok settings =>
        rw [found] at loaded
        rw [bind_map_left, run_attempt_ok loaded]
        exact run_evaluated ((Run.simulate config _ (some settings) options).run _).1 (fun report =>
          ⟨report.summary, report.toJson, output, "Saved report to "⟩) s

theorem run_performWith (engine : EngineSource) (task : Task) (s : σ) :
    (performWith engine task : ExceptT Failure (StateM σ) Unit).run s =
      match present (read s) engine task with
      | .ok p =>
        (publish p.summary p.record p.path p.notice : ExceptT Failure (StateM σ) Unit).run s
      | .error failure => (.error failure, s) := by
  have loaded := run_load_engine reads engine s
  unfold performWith present
  rw [ExceptT.run_bind, ExceptT.run_liftM, bind_map_left, run_bind_of_eq loaded]
  cases EngineConfig.find (read s) engine with
  | error fault => rfl
  | ok config =>
    refine (run_perform reads config task s).trans ?_
    change _ = match (task.present (read s) config).mapError Failure.run with
      | .ok p => _
      | .error e => _
    cases task.present (read s) config with
    | error e => rfl
    | ok p => rfl

end Reading

/-! ## Publication -/

section Publication

variable {σ : Type} [Host (StateM σ)] {summary path notice : String} {record : Json}
  {s s₁ s₂ s₃ : σ}

theorem run_writeRecord {r : Except FileFault Unit}
    (wrote : (Host.writeText path (Json.pretty 0 record) : StateM σ _) s = (r, s₁)) :
    (writeRecord path record : StateM σ _) s = (r.mapError (.inaccessible path), s₁) := by
  unfold writeRecord
  rw [run_bind_of_eq wrote]
  cases r with
  | error fault => rfl
  | ok _ => rfl

theorem run_publish_unsaved (printed : (Host.print summary : StateM σ Unit) s = ((), s₁)) :
    (publish summary record none notice : ExceptT Failure (StateM σ) Unit).run s =
      (.ok (), s₁) := by
  unfold publish
  rw [ExceptT.run_bind, ExceptT.run_liftM, bind_map_left, run_bind_of_eq printed]
  rfl

theorem run_publish_saved (printed : (Host.print summary : StateM σ Unit) s = ((), s₁))
    (wrote : (Host.writeText path (Json.pretty 0 record) : StateM σ _) s₁ = (.ok (), s₂))
    (noticed : (Host.print (notice ++ path ++ "\n") : StateM σ Unit) s₂ = ((), s₃)) :
    (publish summary record (some path) notice : ExceptT Failure (StateM σ) Unit).run s =
      (.ok (), s₃) := by
  unfold publish
  rw [ExceptT.run_bind, ExceptT.run_liftM, bind_map_left, run_bind_of_eq printed]
  refine (run_attempt_ok (run_writeRecord wrote)).trans ?_
  rw [ExceptT.run_liftM, map_eq_pure_bind, run_bind_of_eq noticed]
  rfl

theorem run_publish_refused {fault : FileFault}
    (printed : (Host.print summary : StateM σ Unit) s = ((), s₁))
    (refused : (Host.writeText path (Json.pretty 0 record) : StateM σ _) s₁ =
      (.error fault, s₂)) :
    (publish summary record (some path) notice : ExceptT Failure (StateM σ) Unit).run s =
      (.error (.run (.inaccessible path fault)), s₂) := by
  unfold publish
  rw [ExceptT.run_bind, ExceptT.run_liftM, bind_map_left, run_bind_of_eq printed]
  exact run_attempt_error (run_writeRecord refused)

end Publication

/-- The outcome of a command that was carried out. -/
def Outcome.of : Except Failure Unit → Outcome
  | .ok () => .done
  | .error failure => .failed failure

section Requests

variable {σ : Type} [Host (StateM σ)] {read : σ → String → Except FileFault String}
  {arguments : List String} {engine : EngineSource} {task : Task} {s : σ}

theorem run_of_request (asked : Request.of? arguments = some (.run engine task)) {s' : σ}
    {r : Except Failure Unit}
    (performed : (performWith engine task : ExceptT Failure (StateM σ) Unit).run s = (r, s')) :
    (run arguments : StateM σ Outcome) s = (.of r, s') := by
  unfold run
  rw [asked]
  dsimp only
  rw [run_bind_of_eq performed]
  cases r with
  | error failure => rfl
  | ok _ => rfl

variable (reads : ∀ path s, (Host.readText path : StateM σ _) s = (read s path, s))

include reads

/-- A command that has nothing to show fails and leaves its machine as it was. -/
theorem run_of_failure (asked : Request.of? arguments = some (.run engine task))
    {failure : Failure} (failed : present (read s) engine task = .error failure) :
    (run arguments : StateM σ Outcome) s = (.failed failure, s) := by
  have performed := run_performWith reads engine task s
  rw [failed] at performed
  exact run_of_request asked performed

/-- A command that has something to show publishes it. -/
theorem run_of_present (asked : Request.of? arguments = some (.run engine task))
    {p : Presentation} (shown : present (read s) engine task = .ok p) {s' : σ}
    {r : Except Failure Unit}
    (published : (publish p.summary p.record p.path p.notice :
      ExceptT Failure (StateM σ) Unit).run s = (r, s')) :
    (run arguments : StateM σ Outcome) s = (.of r, s') := by
  have performed := run_performWith reads engine task s
  rw [shown] at performed
  exact run_of_request asked (performed.trans published)

end Requests

end Command

end Nonlocal
