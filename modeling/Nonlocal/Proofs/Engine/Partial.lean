import Nonlocal.Engine.Codec
import Nonlocal.Proofs.Json.Partial

/-!
Tunings that leave entries out.

A record of the tuning from which entries were removed, whole sections or single entries inside of
one, is read as the tuning with the standard values in their place (`EngineConfig.overlay`). Only
the ends and the samples of a span have no standard value: when the record of a span is there
without one of them, reading it reports the first one that is missing (`EngineConfig.missing?`).
Main statement: `EngineConfig.partial_reread`.
-/

namespace Nonlocal

open Json Json.Document

theorem Vec3.decode_toJson {v : Vec3 Float} (finite : AllFinite v.toList) :
    Vec3.decode (ofJson v.toJson) = .ok v := by
  simp only [toList, allFinite_cons, allFinite_nil, and_true] at finite
  obtain ⟨x, y, z⟩ := finite
  have triple : floatTriple (ofJson v.toJson) = .ok (v.x, v.y, v.z) := floatTriple_ofList x y z
  rw [Vec3.decode, triple]
  rfl

/-! ## The numbers of a tuning -/

section Numbers

variable {K : Type}

/-- The numbers of a span. -/
def TimeSpan.numbers (s : TimeSpan K) : List K :=
  [s.start, s.finish]

/-- The numbers of the parameters of the chaotic systems. -/
def ChaosConfig.numbers (c : ChaosConfig K) : List K :=
  [c.lorenzSigma, c.lorenzRho, c.lorenzBeta, c.chuaAlpha, c.chuaBeta, c.chuaGamma, c.chuaM0,
    c.chuaM1, c.logisticR] ++ c.lorenzInitial.toList ++ c.chuaInitial.toList
    ++ c.lorenzSpan.numbers ++ c.chuaSpan.numbers

/-- The numbers of the privacy thresholds. -/
def PrivacyBounds.numbers (b : PrivacyBounds K) : List K :=
  [b.maxEntropyLeakBits, b.minReyniDivergence, b.maxHockeyStickDelta, b.reyniAlpha, b.reyniScale,
    b.hockeyStickScale, b.amplificationGain, b.amplificationCeiling]

/-- The numbers of a tuning. -/
def EngineConfig.numbers (c : EngineConfig K) : List K :=
  c.ciphertextScale :: (c.chaos.numbers ++ c.privacy.numbers)

end Numbers

/-! ## Standard values in place of what was removed -/

section Overlay

variable {K : Type} {α : Type}

/-- The value of an entry that was kept, and its standard value when it was removed. -/
def kept (keep : List String → Bool) (key : String) (value standard : α) : α :=
  if keep [key] then value else standard

/-- What is read when an entry without a standard value may be missing. -/
def unlessMissing (missing : Option String) (x : α) : Except Fault α :=
  match missing with
  | none => .ok x
  | some name => .error (.fieldMissing name)

/-- The entries of a span that have no standard value. -/
def TimeSpan.required : List String :=
  ["start", "end", "samples"]

/-- The first of these that was removed. -/
def TimeSpan.missing? (keep : List String → Bool) : Option String :=
  required.find? fun key => !keep [key]

/-- The spans of the chaotic systems. -/
def ChaosConfig.spans : List String :=
  ["lorenz_span", "chua_span"]

/-- The first entry that is missing from a span that was kept. -/
def ChaosConfig.missing? (keep : List String → Bool) : Option String :=
  spans.findSome? fun span => kept keep span (TimeSpan.missing? (inside span keep)) none

/-- The first entry that is missing from a span that was kept. -/
def EngineConfig.missing? (keep : List String → Bool) : Option String :=
  kept keep "chaos" (ChaosConfig.missing? (inside "chaos" keep)) none

/-- No span that was kept lacks an entry without a standard value. -/
def EngineConfig.SpansComplete (keep : List String → Bool) : Prop :=
  ∀ span ∈ ChaosConfig.spans, keep ["chaos"] → keep ["chaos", span] →
    ∀ key ∈ TimeSpan.required, keep ["chaos", span, key]

instance (keep : List String → Bool) : Decidable (EngineConfig.SpansComplete keep) :=
  inferInstanceAs (Decidable (∀ span ∈ ChaosConfig.spans, keep ["chaos"] → keep ["chaos", span] →
    ∀ key ∈ TimeSpan.required, keep ["chaos", span, key]))

/-- The span with the standard substeps if they were removed. -/
def TimeSpan.overlay (keep : List String → Bool) (s : TimeSpan K) : TimeSpan K :=
  { s with substeps := kept keep "substeps" s.substeps defaultSubsteps }

variable [Scalar K]

/-- The parameters with the standard ones in place of those that were removed. -/
def ChaosConfig.overlay (keep : List String → Bool) (c : ChaosConfig K) : ChaosConfig K where
  lorenzSigma := kept keep "lorenz_sigma" c.lorenzSigma standard.lorenzSigma
  lorenzRho := kept keep "lorenz_rho" c.lorenzRho standard.lorenzRho
  lorenzBeta := kept keep "lorenz_beta" c.lorenzBeta standard.lorenzBeta
  lorenzInitial := kept keep "lorenz_initial" c.lorenzInitial standard.lorenzInitial
  lorenzSpan :=
    kept keep "lorenz_span" (c.lorenzSpan.overlay (inside "lorenz_span" keep)) standard.lorenzSpan
  chuaAlpha := kept keep "chua_alpha" c.chuaAlpha standard.chuaAlpha
  chuaBeta := kept keep "chua_beta" c.chuaBeta standard.chuaBeta
  chuaGamma := kept keep "chua_gamma" c.chuaGamma standard.chuaGamma
  chuaM0 := kept keep "chua_m0" c.chuaM0 standard.chuaM0
  chuaM1 := kept keep "chua_m1" c.chuaM1 standard.chuaM1
  chuaInitial := kept keep "chua_initial" c.chuaInitial standard.chuaInitial
  chuaSpan :=
    kept keep "chua_span" (c.chuaSpan.overlay (inside "chua_span" keep)) standard.chuaSpan
  logisticR := kept keep "logistic_r" c.logisticR standard.logisticR
  logisticSteps := kept keep "logistic_steps" c.logisticSteps (standard : ChaosConfig K).logisticSteps

/-- The thresholds with the standard ones in place of those that were removed. -/
def PrivacyBounds.overlay (keep : List String → Bool) (b : PrivacyBounds K) : PrivacyBounds K where
  maxEntropyLeakBits :=
    kept keep "max_entropy_leak_bits" b.maxEntropyLeakBits standard.maxEntropyLeakBits
  minReyniDivergence :=
    kept keep "min_reyni_divergence" b.minReyniDivergence standard.minReyniDivergence
  maxHockeyStickDelta :=
    kept keep "max_hockey_stick_delta" b.maxHockeyStickDelta standard.maxHockeyStickDelta
  reyniAlpha := kept keep "reyni_alpha" b.reyniAlpha standard.reyniAlpha
  reyniScale := kept keep "reyni_scale" b.reyniScale standard.reyniScale
  hockeyStickScale := kept keep "hockey_stick_scale" b.hockeyStickScale standard.hockeyStickScale
  amplificationGain := kept keep "amplification_gain" b.amplificationGain standard.amplificationGain
  amplificationCeiling :=
    kept keep "amplification_ceiling" b.amplificationCeiling standard.amplificationCeiling

/-- The tuning with the standard one in place of what was removed, be it a section or an entry of
one. -/
def EngineConfig.overlay (keep : List String → Bool) (c : EngineConfig K) : EngineConfig K where
  chaos := kept keep "chaos" (c.chaos.overlay (inside "chaos" keep)) standard.chaos
  privacy := kept keep "privacy" (c.privacy.overlay (inside "privacy" keep)) standard.privacy
  sandboxSeed := kept keep "sampler"
    (kept (inside "sampler" keep) "sandbox_seed" c.sandboxSeed Sampler.correlatorSeed)
    Sampler.correlatorSeed
  ezphSeed := kept keep "sampler"
    (kept (inside "sampler" keep) "ezph_seed" c.ezphSeed Sampler.chaosSeed) Sampler.chaosSeed
  ciphertextScale := kept keep "fhe"
    (kept (inside "fhe" keep) "ciphertext_scale" c.ciphertextScale standard.ciphertextScale)
    standard.ciphertextScale
  fingerprint := kept keep "hash_backend" c.fingerprint (standard : EngineConfig K).fingerprint

end Overlay

/-! ## Reading what was kept -/

section Reading

open Fields

variable (keep : List String → Bool)

theorem takes_kept {α : Type} {decode : Decoder α} {v : Json} {x : α} (name : String)
    (reads : decode (ofJson v) = .ok x) :
    (field name decode).Takes none (if keep [name] then [(name, v)] else [])
      (kept keep name (some x) none) :=
  Takes.ifKept (takeOnce_fresh reads) (keep [name])

theorem takes_keptOr {α : Type} {decode : Decoder α} {v : Json} {x : α} (name : String)
    (missing : α) (reads : decode (ofJson v) = .ok x) :
    (fieldOr name decode missing).Takes none (if keep [name] then [(name, v)] else [])
      (kept keep name (some x) none) :=
  Takes.ifKept (takeOnce_fresh reads) (keep [name])

theorem TimeSpan.decode_prune {s : TimeSpan Float} (finite : AllFinite s.numbers) :
    TimeSpan.decode (ofJson (s.toJson.prune keep)) =
      unlessMissing (missing? keep) (s.overlay keep) := by
  simp only [numbers, allFinite_cons, allFinite_nil, and_true] at finite
  obtain ⟨start, finish⟩ := finite
  have ends := (takes_kept keep "start" (float_ofFloat start)).and
    (takes_kept keep "end" (float_ofFloat finish)) (forall_mem_kept (by simp) (keep ["end"]))
  have samples := ends.and (takes_kept keep "samples" (wordAs_ofWord "usize" s.samples))
    (forall_mem_kept (by simp) (keep ["samples"]))
  have entries := samples.and
    (takes_keptOr keep "substeps" defaultSubsteps (wordAs_ofWord "usize" s.substeps))
    (forall_mem_kept (by simp) (keep ["substeps"]))
  simp only [List.append_assoc] at entries
  simp only [toJson, prune, pruneEntries, prune_ofFloat, prune_ofWord, List.append_nil]
  refine ((entries.map _).decode "TimeSpan").trans ?_
  simp only [missing?, required, List.find?, overlay, kept]
  cases keep ["start"] <;> cases keep ["end"] <;> cases keep ["samples"] <;>
    cases keep ["substeps"] <;> rfl

theorem ChaosConfig.decode_prune {c : ChaosConfig Float} (finite : AllFinite c.numbers) :
    ChaosConfig.decode (ofJson (c.toJson.prune keep)) =
      unlessMissing (missing? keep) (c.overlay keep) := by
  simp only [numbers, allFinite_append, allFinite_cons, allFinite_nil, and_true] at finite
  obtain ⟨⟨⟨⟨⟨sigma, rho, lorenzBeta, alpha, chuaBeta, gamma, m0, m1, rate⟩, lorenzStart⟩, chuaStart⟩,
    lorenzSpan⟩, chuaSpan⟩ := finite
  have lorenz := (((gives_kept_ok "lorenz_sigma" standard.lorenzSigma (keep ["lorenz_sigma"])
      (float_ofFloat sigma)).andKeptOk "lorenz_rho" standard.lorenzRho (keep ["lorenz_rho"])
      (float_ofFloat rho) (by simp)).andKeptOk "lorenz_beta" standard.lorenzBeta
      (keep ["lorenz_beta"]) (float_ofFloat lorenzBeta) (by simp)).andKeptOk "lorenz_initial"
      standard.lorenzInitial (keep ["lorenz_initial"]) (Vec3.decode_toJson lorenzStart) (by simp)
  have first := lorenz.andKept "lorenz_span" standard.lorenzSpan (keep ["lorenz_span"])
    (TimeSpan.decode_prune (inside "lorenz_span" keep) lorenzSpan) (by simp)
  have chua := (((((first.andKeptOk "chua_alpha" standard.chuaAlpha (keep ["chua_alpha"])
      (float_ofFloat alpha) (by simp)).andKeptOk "chua_beta" standard.chuaBeta (keep ["chua_beta"])
      (float_ofFloat chuaBeta) (by simp)).andKeptOk "chua_gamma" standard.chuaGamma
      (keep ["chua_gamma"]) (float_ofFloat gamma) (by simp)).andKeptOk "chua_m0" standard.chuaM0
      (keep ["chua_m0"]) (float_ofFloat m0) (by simp)).andKeptOk "chua_m1" standard.chuaM1
      (keep ["chua_m1"]) (float_ofFloat m1) (by simp)).andKeptOk "chua_initial"
      standard.chuaInitial (keep ["chua_initial"]) (Vec3.decode_toJson chuaStart) (by simp)
  have second := chua.andKept "chua_span" standard.chuaSpan (keep ["chua_span"])
    (TimeSpan.decode_prune (inside "chua_span" keep) chuaSpan) (by simp)
  have entries := (second.andKeptOk "logistic_r" standard.logisticR (keep ["logistic_r"])
      (float_ofFloat rate) (by simp)).andKeptOk "logistic_steps"
      (standard : ChaosConfig Float).logisticSteps (keep ["logistic_steps"])
      (wordAs_ofWord "usize" c.logisticSteps) (by simp)
  simp only [List.append_assoc] at entries
  simp only [toJson, Vec3.toJson, prune, pruneEntries, prune_ofFloat, prune_ofWord, prune_ofList,
    List.append_nil]
  refine ((entries.map _).decode "ChaosConfig").trans ?_
  simp only [missing?, spans, List.findSome?, overlay, kept]
  cases keep ["lorenz_span"] <;> cases keep ["chua_span"] <;>
    cases TimeSpan.missing? (inside "lorenz_span" keep) <;>
    cases TimeSpan.missing? (inside "chua_span" keep) <;> rfl

theorem PrivacyBounds.decode_prune {b : PrivacyBounds Float} (finite : AllFinite b.numbers) :
    PrivacyBounds.decode (ofJson (b.toJson.prune keep)) = .ok (b.overlay keep) := by
  simp only [numbers, allFinite_cons, allFinite_nil, and_true] at finite
  obtain ⟨leak, divergence, delta, order, scale, stick, gain, ceiling⟩ := finite
  have limits := ((gives_kept_ok "max_entropy_leak_bits" standard.maxEntropyLeakBits
      (keep ["max_entropy_leak_bits"]) (float_ofFloat leak)).andKeptOk "min_reyni_divergence"
      standard.minReyniDivergence (keep ["min_reyni_divergence"]) (float_ofFloat divergence)
      (by simp)).andKeptOk "max_hockey_stick_delta" standard.maxHockeyStickDelta
      (keep ["max_hockey_stick_delta"]) (float_ofFloat delta) (by simp)
  have scales := ((limits.andKeptOk "reyni_alpha" standard.reyniAlpha (keep ["reyni_alpha"])
      (float_ofFloat order) (by simp)).andKeptOk "reyni_scale" standard.reyniScale
      (keep ["reyni_scale"]) (float_ofFloat scale) (by simp)).andKeptOk "hockey_stick_scale"
      standard.hockeyStickScale (keep ["hockey_stick_scale"]) (float_ofFloat stick) (by simp)
  have entries := (scales.andKeptOk "amplification_gain" standard.amplificationGain
      (keep ["amplification_gain"]) (float_ofFloat gain) (by simp)).andKeptOk
      "amplification_ceiling" standard.amplificationCeiling (keep ["amplification_ceiling"])
      (float_ofFloat ceiling) (by simp)
  simp only [List.append_assoc] at entries
  simp only [toJson, prune, pruneEntries, prune_ofFloat, List.append_nil]
  exact (entries.map _).decode "PrivacyBounds"

theorem FingerprintKind.decode_name (kind : FingerprintKind) :
    decode (ofJson (.string kind.name)) = .ok kind := by
  cases kind <;> rfl

namespace EngineConfig

theorem decodeSeeds_prune (sandbox ezph : UInt64) :
    decodeSeeds (ofJson (prune keep
      (.object [("sandbox_seed", .ofWord sandbox), ("ezph_seed", .ofWord ezph)]))) =
    .ok (kept keep "sandbox_seed" sandbox Sampler.correlatorSeed,
      kept keep "ezph_seed" ezph Sampler.chaosSeed) := by
  have entries := (gives_kept_ok "sandbox_seed" Sampler.correlatorSeed (keep ["sandbox_seed"])
      (wordAs_ofWord "u64" sandbox)).andKeptOk "ezph_seed" Sampler.chaosSeed (keep ["ezph_seed"])
      (wordAs_ofWord "u64" ezph) (by simp)
  simp only [prune, pruneEntries, prune_ofWord, List.append_nil]
  exact entries.decode "SamplerConfig"

theorem decodeScale_prune {scale : Float} (finite : scale.isFinite = true) :
    decodeScale (ofJson (prune keep (.object [("ciphertext_scale", .ofFloat scale)]))) =
      .ok (kept keep "ciphertext_scale" scale (standard : EngineConfig Float).ciphertextScale) := by
  have entries := gives_kept_ok "ciphertext_scale"
    (standard : EngineConfig Float).ciphertextScale (keep ["ciphertext_scale"])
    (float_ofFloat finite)
  simp only [prune, pruneEntries, prune_ofFloat, List.append_nil]
  exact entries.decode "FheConfig"

theorem decode_prune {c : EngineConfig Float} (finite : AllFinite c.numbers) :
    decode (ofJson (c.toJson.prune keep)) = unlessMissing (missing? keep) (c.overlay keep) := by
  simp only [numbers, allFinite_append, allFinite_cons] at finite
  obtain ⟨scale, chaos, privacy⟩ := finite
  have parts := (gives_kept "chaos" (standard : EngineConfig Float).chaos (keep ["chaos"])
      (ChaosConfig.decode_prune (inside "chaos" keep) chaos)).andKeptOk "privacy"
      (standard : EngineConfig Float).privacy (keep ["privacy"])
      (PrivacyBounds.decode_prune (inside "privacy" keep) privacy) (by simp)
  have seeds := parts.andKeptOk "sampler" (Sampler.correlatorSeed, Sampler.chaosSeed)
    (keep ["sampler"]) (decodeSeeds_prune (inside "sampler" keep) c.sandboxSeed c.ezphSeed)
    (by simp)
  have entries := (seeds.andKeptOk "fhe" (standard : EngineConfig Float).ciphertextScale
      (keep ["fhe"]) (decodeScale_prune (inside "fhe" keep) scale) (by simp)).andKeptOk
      "hash_backend" (standard : EngineConfig Float).fingerprint (keep ["hash_backend"])
      (FingerprintKind.decode_name c.fingerprint) (by simp)
  simp only [List.append_assoc, prune, pruneEntries, List.append_nil] at entries
  simp only [toJson, prune, pruneEntries, List.append_nil]
  refine ((entries.map _).decode "EngineConfig").trans ?_
  simp only [missing?, overlay, kept]
  cases keep ["chaos"] <;> cases keep ["sampler"] <;>
    cases ChaosConfig.missing? (inside "chaos" keep) <;> rfl

end EngineConfig

end Reading

namespace EngineConfig

variable {keep : List String → Bool}

theorem missing?_eq_none_iff : missing? keep = none ↔ SpansComplete keep := by
  unfold missing? SpansComplete kept
  cases keep ["chaos"] with
  | false => simp
  | true =>
    simp only [if_true, true_implies, ChaosConfig.missing?, List.findSome?_eq_none_iff]
    refine forall₂_congr fun span _ => ?_
    change (if keep ["chaos", span] then _ else none) = none ↔ _
    cases keep ["chaos", span] with
    | false => simp
    | true => simp [TimeSpan.missing?, inside]

theorem missing?_mem {name : String} (found : missing? keep = some name) :
    name ∈ TimeSpan.required := by
  unfold missing? kept at found
  split at found
  · obtain ⟨span, -, found⟩ := List.exists_of_findSome?_eq_some found
    unfold kept at found
    split at found
    · exact List.mem_of_find?_eq_some found
    · cases found
  · cases found

/-- A tuning is read from any part of its record: what was kept is as it was, and what was removed
is standard. It cannot be read when one of the ends or the samples of a span was removed and the
span was not. The empty record gives the standard tuning, and the whole record the tuning itself. -/
theorem partial_reread {c : EngineConfig Float} (finite : AllFinite c.numbers) :
    (∀ keep, SpansComplete keep → decode (ofJson (c.toJson.prune keep)) = .ok (c.overlay keep)) ∧
    (∀ keep, ¬SpansComplete keep → ∃ key ∈ TimeSpan.required,
      decode (ofJson (c.toJson.prune keep)) = .error (.fieldMissing key)) ∧
    decode (ofJson (.object [])) = .ok .standard ∧ decode (ofJson c.toJson) = .ok c := by
  refine ⟨fun keep complete => ?_, fun keep incomplete => ?_, ?_, ?_⟩
  · rw [decode_prune keep finite, missing?_eq_none_iff.mpr complete]
    rfl
  · obtain ⟨key, found⟩ := Option.ne_none_iff_exists'.mp (mt missing?_eq_none_iff.mp incomplete)
    refine ⟨key, missing?_mem found, ?_⟩
    rw [decode_prune keep finite, found]
    rfl
  · exact decode_prune (fun _ => false) finite
  · have whole := decode_prune (fun _ => true) finite
    rw [prune_all] at whole
    exact whole

/-- A record of the rate of the logistic map alone is the standard tuning with this rate; an empty
record of a span beside it cannot be read. -/
theorem partial_reread_rate :
    let slow : EngineConfig Float :=
      { standard with chaos := { ChaosConfig.standard with logisticR := 3.5 } }
    let rate : List String → Bool := fun path => path ∈ [["chaos"], ["chaos", "logistic_r"]]
    let span : List String → Bool := fun path => rate path || path = ["chaos", "lorenz_span"]
    AllFinite slow.numbers ∧ SpansComplete rate ∧ ¬SpansComplete span ∧
    decode (ofJson (slow.toJson.prune rate)) = .ok slow ∧
    ∃ key ∈ TimeSpan.required, decode (ofJson (slow.toJson.prune span)) =
      .error (.fieldMissing key) := by
  intro slow rate span
  have finite : AllFinite slow.numbers := by decide +kernel
  have complete : SpansComplete rate := by decide
  have incomplete : ¬SpansComplete span := by decide
  obtain ⟨reads, refuses, -⟩ := partial_reread finite
  exact ⟨finite, complete, incomplete, reads rate complete, refuses span incomplete⟩

end EngineConfig

end Nonlocal
