import Nonlocal.Proofs.Command.Readiness
import Nonlocal.Proofs.Host.Journal

/-!
What a command does to its machine.

A command that is ready and whose run has a report prints the summary; it writes the record if one
is asked for, and says so once the record is written (`Published`). A command that is not ready, or
whose run ends the program, does nothing before it fails. So it is on every machine that is lawful
(`run_effects`).
-/

namespace Nonlocal.Command

/-! ## Commands -/

open LawfulHost (files output bytes Touches afterPrint)

section Effects

variable {σ : Type} [Host (StateM σ)] [LawfulHost σ]

/-- How a command ends that has a rendering to publish: the outcome, the machine, and what was done
to it in order. The summary is printed. Where a record is asked for, its text is then written, and
this is said after it was done. Other files are as they were. -/
inductive Published (task : Task) (w : σ) (r : Rendering) : Outcome → σ → List Effect → Prop
  | shown {w' : σ} : task.destination = none → files w' = files w →
    output w' = output w ++ r.summary → Published task w r .done w' [.printed r.summary]
  | saved {path : String} {w' : σ} : task.destination = some path →
    ((Host.writeText path r.text : StateM σ _) (afterPrint w r.summary)).1 = .ok () →
    output w' = output w ++ r.summary ++ (task.notice ++ path ++ "\n") →
    bytes (files w') path = some r.text.toUTF8 →
    (∀ other, ¬Touches (files w) path other → bytes (files w') other = bytes (files w) other) →
    Published task w r .done w' [.printed r.summary, .wrote path r.text,
      .printed (task.notice ++ path ++ "\n")]
  | refused {path : String} {fault : FileFault} {w' : σ} : task.destination = some path →
    ((Host.writeText path r.text : StateM σ _) (afterPrint w r.summary)).1 = .error fault →
    output w' = output w ++ r.summary →
    (∀ other, ¬Touches (files w) path other → bytes (files w') other = bytes (files w) other) →
    Published task w r (.failed (.run (.inaccessible path fault))) w' [.printed r.summary]

/-- How a command ends that is ready. Steps that do not fit into a word, or a draw that is no count,
end the program, and nothing was done before. -/
inductive Ends (task : Task) (config : EngineConfig Float)
    (settings : Option (BridgeSettings Float)) (w : σ) : Outcome → σ → List Effect → Prop
  | overflowed : task.Overflows config →
    task.Runs config settings (.error (Task.ended .stepOverflow)) →
    Ends task config settings w (.failed (.run (Task.ended .stepOverflow))) w []
  | aborted {cause : Panic} : ¬task.Overflows config → ¬HasCounts Float →
    task.Runs config settings (.error (Task.ended cause)) →
    Ends task config settings w (.failed (.run (Task.ended cause))) w []
  | published {r : Rendering} {outcome : Outcome} {w' : σ} {effects : List Effect} :
    ¬task.Overflows config → task.Runs config settings (.ok r) → r.IsFaithful →
    Published task w r outcome w' effects → Ends task config settings w outcome w' effects

section Results

variable {arguments : List String} {engine : EngineSource} {task : Task}
  {config : EngineConfig Float} {settings : Option (BridgeSettings Float)} {w w' : σ}
  {r : Rendering} {outcome : Outcome} {effects : List Effect}

/-- If draws are counts and the steps fit into words, a command that is ready publishes its
report. -/
theorem Ends.exists_published [HasCounts Float] (counted : ¬task.Overflows config)
    (ends : Ends task config settings w outcome w' effects) :
    ∃ r, r.IsFaithful ∧ Published task w r outcome w' effects := by
  cases ends with
  | overflowed exceeds => exact absurd exceeds counted
  | aborted _ broken => exact absurd (inferInstance : HasCounts Float) broken
  | published _ _ faithful published => exact ⟨_, faithful, published⟩

/-- A command that is ready and whose run fails leaves its machine as it was. -/
theorem run_of_ready_failure (asked : Request.of? arguments = some (.run engine task))
    (ready : Ready (LawfulHost.read (files w)) engine task config settings) {e : Error Float}
    (failed : task.Runs config settings (.error e)) :
    (run arguments : StateM σ Outcome) w = (.failed (.run e), w) ∧
      (run arguments : StateM (Journal σ) Outcome) ⟨w, []⟩ = (.failed (.run e), ⟨w, []⟩) := by
  have shown := ready.present failed
  exact ⟨run_of_failure LawfulHost.readText_eq asked shown,
    run_of_failure (s := ⟨w, []⟩) Journal.readText_eq asked shown⟩

section Publication

variable (asked : Request.of? arguments = some (.run engine task))
  (ready : Ready (LawfulHost.read (files w)) engine task config settings)
  (ran : task.Runs config settings (.ok r))

include asked ready ran

theorem run_unsaved (unasked : task.destination = none) :
    (run arguments : StateM σ Outcome) w = (.done, afterPrint w r.summary) ∧
      (run arguments : StateM (Journal σ) Outcome) ⟨w, []⟩ =
        (.done, ⟨afterPrint w r.summary, [.printed r.summary]⟩) := by
  have shown : present _ engine task = .ok (task.presentation r) := ready.present ran
  rw [Task.presentation, unasked] at shown
  have printed : (Host.print r.summary : StateM σ Unit) w = ((), afterPrint w r.summary) := rfl
  exact ⟨run_of_present LawfulHost.readText_eq asked shown (run_publish_unsaved printed),
    run_of_present (s := ⟨w, []⟩) Journal.readText_eq asked shown
      (run_publish_unsaved (Journal.print_eq printed))⟩

variable {path : String} (destination : task.destination = some path)

include destination

theorem run_saved
    (made : (Host.writeText path r.text : StateM σ _) (afterPrint w r.summary) = (.ok (), w')) :
    let line := task.notice ++ path ++ "\n"
    (run arguments : StateM σ Outcome) w = (.done, afterPrint w' line) ∧
      (run arguments : StateM (Journal σ) Outcome) ⟨w, []⟩ =
        (.done, ⟨afterPrint w' line, [.printed r.summary, .wrote path r.text, .printed line]⟩) := by
  intro line
  have shown : present _ engine task = .ok (task.presentation r) := ready.present ran
  rw [Task.presentation, destination] at shown
  have printed : (Host.print r.summary : StateM σ Unit) w = ((), afterPrint w r.summary) := rfl
  have noticed : (Host.print line : StateM σ Unit) w' = ((), afterPrint w' line) := rfl
  exact ⟨run_of_present LawfulHost.readText_eq asked shown (run_publish_saved printed made noticed),
    run_of_present (s := ⟨w, []⟩) Journal.readText_eq asked shown
      (run_publish_saved (Journal.print_eq printed) (Journal.writeText_eq made)
        (Journal.print_eq noticed))⟩

theorem run_refused {fault : FileFault}
    (made : (Host.writeText path r.text : StateM σ _) (afterPrint w r.summary) =
      (.error fault, w')) :
    (run arguments : StateM σ Outcome) w = (.failed (.run (.inaccessible path fault)), w') ∧
      (run arguments : StateM (Journal σ) Outcome) ⟨w, []⟩ =
        (.failed (.run (.inaccessible path fault)), ⟨w', [.printed r.summary]⟩) := by
  have shown : present _ engine task = .ok (task.presentation r) := ready.present ran
  rw [Task.presentation, destination] at shown
  have printed : (Host.print r.summary : StateM σ Unit) w = ((), afterPrint w r.summary) := rfl
  exact ⟨run_of_present LawfulHost.readText_eq asked shown (run_publish_refused printed made),
    run_of_present (s := ⟨w, []⟩) Journal.readText_eq asked shown
      (run_publish_refused (Journal.print_eq printed) (Journal.writeText_eq made))⟩

omit destination

theorem exists_published :
    ∃ outcome w' effects, (run arguments : StateM σ Outcome) w = (outcome, w') ∧
      (run arguments : StateM (Journal σ) Outcome) ⟨w, []⟩ = (outcome, ⟨w', effects⟩) ∧
      Published task w r outcome w' effects := by
  rcases destination : task.destination with _ | path
  · rcases run_unsaved asked ready ran destination with ⟨onMachine, onJournal⟩
    exact ⟨_, _, _, onMachine, onJournal,
      .shown destination LawfulHost.files_afterPrint LawfulHost.output_afterPrint⟩
  · rcases made : (Host.writeText path r.text : StateM σ _) (afterPrint w r.summary) with
      ⟨answer, w₁⟩
    have answered := congrArg Prod.fst made
    have text := (LawfulHost.output_of_write made).trans LawfulHost.output_afterPrint
    have others (other : String) (apart : ¬Touches (files w) path other) :
        bytes (files w₁) other = bytes (files w) other := by
      rw [← LawfulHost.files_afterPrint (s := w)] at apart ⊢
      exact LawfulHost.bytes_of_not_touches made apart
    rcases answer with fault | _
    · rcases run_refused asked ready ran destination made with ⟨onMachine, onJournal⟩
      exact ⟨_, _, _, onMachine, onJournal, .refused destination answered text others⟩
    · rcases run_saved asked ready ran destination made with ⟨onMachine, onJournal⟩
      refine ⟨_, _, _, onMachine, onJournal, .saved destination answered ?_ ?_ ?_⟩
      · rw [LawfulHost.output_afterPrint, text]
      · rw [LawfulHost.files_afterPrint]
        exact LawfulHost.bytes_of_write made
      · rw [LawfulHost.files_afterPrint]
        exact others

end Publication

/-- How a command that is ready ends, on its machine and in a journal. -/
theorem exists_ends (asked : Request.of? arguments = some (.run engine task))
    (ready : Ready (LawfulHost.read (files w)) engine task config settings) :
    ∃ outcome w' effects, (run arguments : StateM σ Outcome) w = (outcome, w') ∧
      (run arguments : StateM (Journal σ) Outcome) ⟨w, []⟩ = (outcome, ⟨w', effects⟩) ∧
      Ends task config settings w outcome w' effects := by
  rcases Task.runs_cases ready.admitted config with
    ⟨overflows, ran⟩ | ⟨counted, ⟨r, ran⟩ | ⟨broken, cause, ran⟩⟩
  · rcases run_of_ready_failure asked ready ran with ⟨onMachine, onJournal⟩
    exact ⟨_, _, _, onMachine, onJournal, .overflowed overflows ran⟩
  · rcases exists_published asked ready ran with
      ⟨outcome, w', effects, onMachine, onJournal, published⟩
    exact ⟨outcome, w', effects, onMachine, onJournal,
      .published counted ran ran.isFaithful published⟩
  · rcases run_of_ready_failure asked ready ran with ⟨onMachine, onJournal⟩
    exact ⟨_, _, _, onMachine, onJournal, .aborted counted broken ran⟩

end Results

end Effects

/-! ## On a machine -/

end Nonlocal.Command
