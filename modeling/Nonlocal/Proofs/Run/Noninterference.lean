import Nonlocal.Proofs.Binary64.Functions
import Nonlocal.Proofs.Run.Success

/-!
What a chaos run does not look at.

Of its settings a chaos run reads the seed and the size of the payload. The generator and the shots
reach nothing but the estimates; this is read off from runs that share their seed and their noise
(`exists_runs_ezph`). The kind of fingerprint, the privacy bounds and the scale of the ciphertext
reach nothing but the field that they are meant for, because a run does nothing after its
measurement but report (`simulate_eq`).
-/

namespace Nonlocal.Run

variable {K : Type} [Numerics K] {α : Type}

/-- Two results are the same error, or two reports that are related. -/
inductive Agree (R : α → α → Prop) : Except (Error K) α → Except (Error K) α → Prop
  | error (e : Error K) : Agree R (.error e) (.error e)
  | ok {r r' : α} : R r r' → Agree R (.ok r) (.ok r')

/-- A chaos run reads the seed of its settings and the size of their payload, and nothing else. -/
theorem ezph_congr {settings settings' : Option (BridgeSettings K)}
    (seed : (settings'.map BridgeSettings.seed).getD fallbackSeed =
      (settings.map BridgeSettings.seed).getD fallbackSeed)
    (payload : (settings'.map BridgeSettings.payloadBytes).getD defaultPayloadBytes =
      (settings.map BridgeSettings.payloadBytes).getD defaultPayloadBytes)
    (config : EngineConfig K) (source : ChaosSource K) (options : RunOptions K) :
    ezph config source settings' options = ezph config source settings options := by
  unfold ezph simulate
  rw [seed, payload]

/-- A chaos run up to its report: the fraction of the seed, the sample of chaos and the measurement
of the disturbed register. -/
def measureChaos (engine : ChaosEngine K) (settings : Option (BridgeSettings K))
    (options : RunOptions K) : Run K (K × ChaosVector K × Measurement K) := do
  let seed := (settings.map BridgeSettings.seed).getD fallbackSeed
  let fraction ← (Seed.fraction seed : Except (Error K) K)
  let chaos ← ((engine fraction).mapError (Error.sampling <| .panic ·) :
    Except (Error K) (ChaosVector K))
  let m ← measure (disturbedRegister options chaos) pauliTerms options.shots
  return (fraction, chaos, m)

section Runs

variable {config config' : EngineConfig K} {engine : ChaosEngine K} {source : ChaosSource K}
  {settings : Option (BridgeSettings K)} {options : RunOptions K} {shots : Int64}
  {g g' : Generator}

theorem simulate_eq : simulate config engine settings options =
    measureChaos engine settings options >>= fun r =>
      pure (ezphReport config settings options r.1 r.2.1 r.2.2) := by
  simp only [simulate, measureChaos, bind_assoc, pure_bind]
  rfl

omit [Numerics K] in
/-- What a run makes of its measurement agrees if it does so for every measurement, and the generator
is that of the measurement. -/
theorem agree_map {β : Type} {R : α → α → Prop} {x : Run K β} {f f' : β → α}
    (agree : ∀ b, R (f b) (f' b)) :
    Agree R ((x >>= fun b => pure (f b)).run g).1 ((x >>= fun b => pure (f' b)).run g).1 ∧
      ((x >>= fun b => pure (f' b)).run g).2 = ((x >>= fun b => pure (f b)).run g).2 := by
  rcases measured : x.run g with ⟨e | b, g'⟩
  · rw [run_bind_error measured, run_bind_error measured]
    exact ⟨.error e, rfl⟩
  · rw [run_bind_ok measured, run_bind_ok measured]
    exact ⟨.ok (agree b), rfl⟩

/-- The tuning reaches nothing of a run but what is reported of a measurement. -/
theorem agree_ezph_config {R : EzphReport K → EzphReport K → Prop}
    (agree : ∀ fraction chaos m, R (ezphReport config settings options fraction chaos m)
      (ezphReport config' settings options fraction chaos m)) :
    Agree R ((ezph config source settings options).run g).1
        ((ezph config' source settings options).run g).1 ∧
      ((ezph config' source settings options).run g).2 =
        ((ezph config source settings options).run g).2 := by
  rw [ezph, ezph, simulate_eq, simulate_eq]
  exact agree_map fun r => agree r.1 r.2.1 r.2.2

variable [HasProbabilities K] [HasCounts K]

/-- Runs with the same seed and the same noise fail alike, or report on the same correlators. -/
theorem exists_runs_ezph (config : EngineConfig K) (source : ChaosSource K)
    (settings : Option (BridgeSettings K)) (options : RunOptions K) :
    (∃ e, ∀ shots g,
      (ezph config source settings { options with shots }).run g = (.error e, g)) ∨
    ∃ fraction c, ∀ shots g,
      let m := measured c (pauliTerms : List (Term K)).length shots g
      (ezph config source settings { options with shots }).run g =
        (.ok (ezphReport config settings options fraction (source fraction) m.1), m.2) := by
  rcases found : (Seed.fraction ((settings.map BridgeSettings.seed).getD fallbackSeed) :
      Except (Error K) K) with e | fraction
  · left
    exact ⟨e, fun shots g => run_simulate_of_refused found config _ { options with shots } g⟩
  · right
    rcases exists_runs_ezph_of_fraction found source options with ⟨c, run⟩
    exact ⟨fraction, c, run config⟩

theorem agree_ezph {R : EzphReport K → EzphReport K → Prop}
    (agree : ∀ fraction c n,
      R (ezphReport config settings options fraction (source fraction)
          (measured c n options.shots g).1)
        (ezphReport config settings options fraction (source fraction)
          (measured c n shots g').1)) :
    Agree R ((ezph config source settings options).run g).1
      ((ezph config source settings { options with shots }).run g').1 := by
  rcases exists_runs_ezph config source settings options with ⟨e, failed⟩ | ⟨fraction, c, run⟩
  · rw [failed shots g', failed options.shots g]
    exact .error e
  · rw [run shots g', run options.shots g]
    exact .ok (agree fraction c _)

end Runs

/-- What may change in a chaos run. Settings with the same seed and the same size of the payload run
alike, and a run without settings is a run with the fallback seed and the default size. Another
generator can change the estimates, and another number of shots the estimates and the shots of each
term. Another kind of fingerprint, other privacy bounds and another scale of the ciphertext change no
more than their own fields, and they leave the generator where it would be. Runs from other
generators, or with other shots, have reports only if the draws are counts. -/
theorem ezph_noninterference [HasProbabilities K] (config : EngineConfig K)
    (source : ChaosSource K) (options : RunOptions K) (g : Generator) :
    (∀ s s' : BridgeSettings K, s'.seed = s.seed → s'.payloadBytes = s.payloadBytes →
      (ezph config source (some s') options).run g = (ezph config source (some s) options).run g) ∧
    (∀ s : BridgeSettings K, s.seed = "deadbeef" → s.payloadBytes = 2048 →
      (ezph config source none options).run g = (ezph config source (some s) options).run g) ∧
    ∀ settings : Option (BridgeSettings K),
      (∀ [HasCounts K] g', Agree (fun r r' => r' = { r with sampled := r'.sampled })
        ((ezph config source settings options).run g).1
        ((ezph config source settings options).run g').1) ∧
      (∀ [HasCounts K] shots, Agree
        (fun r r' => r' = { r with sampled := r'.sampled, shotsPerTerm := r'.shotsPerTerm })
        ((ezph config source settings options).run g).1
        ((ezph config source settings { options with shots }).run g).1) ∧
      (∀ fingerprint,
        Agree (fun r r' => r' = { r with quantumHash := r'.quantumHash })
          ((ezph config source settings options).run g).1
          ((ezph { config with fingerprint } source settings options).run g).1 ∧
        ((ezph { config with fingerprint } source settings options).run g).2 =
          ((ezph config source settings options).run g).2) ∧
      (∀ privacy,
        Agree (fun r r' => r' = { r with privacy := r'.privacy })
          ((ezph config source settings options).run g).1
          ((ezph { config with privacy } source settings options).run g).1 ∧
        ((ezph { config with privacy } source settings options).run g).2 =
          ((ezph config source settings options).run g).2) ∧
      ∀ ciphertextScale,
        Agree (fun r r' =>
            r' = { r with ciphertext := { r.ciphertext with scale := r'.ciphertext.scale } })
          ((ezph config source settings options).run g).1
          ((ezph { config with ciphertextScale } source settings options).run g).1 ∧
        ((ezph { config with ciphertextScale } source settings options).run g).2 =
          ((ezph config source settings options).run g).2 := by
  refine ⟨?_, ?_, fun settings => ⟨?_, ?_, ?_, ?_, ?_⟩⟩
  · intro s s' seed payload
    rw [@ezph_congr K _ (some s) (some s') seed payload]
  · intro s seed payload
    rw [@ezph_congr K _ (some s) none seed.symm payload.symm]
  · intro counts g'
    exact agree_ezph fun _ _ _ => rfl
  · intro counts shots
    exact agree_ezph fun _ _ _ => rfl
  · intro fingerprint
    exact agree_ezph_config fun _ _ _ => rfl
  · intro privacy
    exact agree_ezph_config fun _ _ _ => rfl
  · intro ciphertextScale
    exact agree_ezph_config fun _ _ _ => rfl

/-- In binary64 a run without settings reports what a receipt of the default size makes it report,
another generator changes the estimates alone, and so does the other kind of fingerprint with the
fingerprint. -/
theorem ezph_noninterference_binary64 :
    let _ : Numerics Float := Binary64.counting
    let source := ChaosVector.sample (K := Float) .standard
    let options : RunOptions Float := { shots := 4096, depolarizing := 3 }
    let g := Generator.ofSeed Sampler.chaosSeed
    let s : BridgeSettings Float :=
      { epoch := 7, seed := "deadbeef", receipt := some ⟨"tuple", 2048, ∅⟩, twoQubit := none
        fiveD := none, hyperedges := [] }
    (∃ report g', (ezph .standard source none options).run g = (.ok report, g')) ∧
    (ezph .standard source none options).run g = (ezph .standard source (some s) options).run g ∧
    Agree (fun r r' => r' = { r with sampled := r'.sampled })
      ((ezph .standard source none options).run g).1
      ((ezph .standard source none options).run (.ofSeed Sampler.correlatorSeed)).1 ∧
    Agree (fun r r' => r' = { r with quantumHash := r'.quantumHash })
      ((ezph .standard source none options).run g).1
      ((ezph { EngineConfig.standard with fingerprint := .inducedNorm } source none options).run
        g).1 := by
  intro counting source options g s
  have counts : HasCounts Float := Binary64.hasCounts_counting
  have probabilities : HasProbabilities Float := Binary64.Functions.counting.hasProbabilities
  have accepted : ∃ fraction : Float, Seed.fraction fallbackSeed = .ok fraction := ⟨_, rfl⟩
  obtain ⟨fraction, found⟩ := accepted
  obtain ⟨-, fallback, fields⟩ := ezph_noninterference .standard source options g
  obtain ⟨generators, -, fingerprints, -, -⟩ := fields none
  have run := @exists_run_ezph Float _ _ none fraction _ found .standard source options g
  exact ⟨run, fallback s rfl rfl, generators _, (fingerprints .inducedNorm).1⟩

end Nonlocal.Run
