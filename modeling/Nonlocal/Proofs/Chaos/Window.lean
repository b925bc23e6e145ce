import Nonlocal.Engine.Basic
import Nonlocal.Proofs.Privacy.Metrics

/-!
The integration window of an accepted tuning.

A span has at least one step, and its steps cover the window: their number times the length of a
step is the length of the window. So a flow that carries a clock along with it ends when the window does
(`Field.x_integrate`). Samples and substeps are each accepted up to the largest word, and their
product is not checked: a number of steps that does not fit into a word is not counted, and the
systems are not run (`EngineConfig.uncounted_steps`).
-/

namespace Nonlocal

open Exact

/-! ## Steps -/

namespace TimeSpan

section Count

variable {K : Type} [Scalar K] {span : TimeSpan K}

theorem sound_iff : EngineConfig.spanIsSound span = true ↔
    Scalar.lt span.start span.finish = true ∧ 2 ≤ span.samples.toNat ∧ 1 ≤ span.substeps.toNat := by
  have nonzero : span.substeps ≠ 0 ↔ 1 ≤ span.substeps.toNat := by
    rw [Ne, ← UInt64.toNat_inj]
    exact Nat.one_le_iff_ne_zero.symm
  simp only [EngineConfig.spanIsSound, Bool.and_eq_true, decide_eq_true_eq, nonzero,
    UInt64.le_iff_toNat_le, and_assoc]
  rfl

/-- A sound span has the substeps of all intervals between its samples. -/
theorem stepCount_eq (sound : EngineConfig.spanIsSound span = true) :
    span.stepCount = (span.samples.toNat - 1) * span.substeps.toNat := by
  rcases sound_iff.mp sound with ⟨-, samples, substeps⟩
  have intervals : Nat.max 1 (span.samples.toNat - 1) = span.samples.toNat - 1 :=
    Nat.max_eq_right (Nat.le_sub_of_add_le samples)
  have parts : Nat.max 1 span.substeps.toNat = span.substeps.toNat := Nat.max_eq_right substeps
  rw [stepCount, intervals, parts]

/-- The steps fit into a word. -/
def IsCountable (span : TimeSpan K) : Prop :=
  span.stepCount < 2 ^ 64

omit [Scalar K] in
theorem countSteps_of_isCountable (fits : span.IsCountable) :
    span.countSteps = .ok (UInt64.ofNat span.stepCount) ∧
      (UInt64.ofNat span.stepCount).toNat = span.stepCount :=
  ⟨if_pos fits, UInt64.toNat_ofNat_of_lt' fits⟩

omit [Scalar K] in
theorem countSteps_of_not_isCountable (exceeds : ¬span.IsCountable) :
    span.countSteps = .error .stepOverflow :=
  if_neg exceeds

end Count

/-! ## Shares of a window -/

section Shares

variable {n : ℕ}

/-- An infinity times a positive number is that infinity. -/
theorem finite_mul_infinite {x : ℝ} (positive : 0 < x) (s : Bool) :
    finite x * infinite s = infinite s := by
  change infinityAlong s x = _
  rw [infinityAlong, if_neg positive.ne', decide_eq_false positive.not_gt, Bool.xor_false]

theorem infinite_div_finite {x : ℝ} (positive : 0 < x) (s : Bool) :
    infinite s / finite x = infinite s := by
  change infinite (s ^^ decide (x < 0)) = _
  rw [decide_eq_false positive.not_gt, Bool.xor_false]

/-- Equal shares of a length make it up. -/
theorem mul_share (positive : 0 < n) (length : Exact) :
    finite n * (length / finite n) = length := by
  have real : (0 : ℝ) < n := Nat.cast_pos.mpr positive
  cases length with
  | finite x => rw [finite_div x real.ne', finite_mul, mul_div_cancel₀ x real.ne']
  | infinite s => rw [infinite_div_finite real, finite_mul_infinite real]
  | nan => rfl

theorem share_pos (positive : 0 < n) {length : Exact} (h : Scalar.lt 0 length = true) :
    Scalar.lt 0 (length / finite n) = true := by
  have real : (0 : ℝ) < n := Nat.cast_pos.mpr positive
  rw [zero_eq] at h ⊢
  cases length with
  | finite x =>
    rw [finite_lt, decide_eq_true_eq] at h
    rw [finite_div x real.ne', finite_lt]
    exact decide_eq_true (div_pos h real)
  | infinite s => rwa [infinite_div_finite real]
  | nan => exact h

/-- A window is longer than nothing if its ends are in order. -/
theorem length_pos {start finish : Exact} (h : Scalar.lt start finish = true) :
    Scalar.lt 0 (finish - start) = true := by
  rw [zero_eq]
  rcases start with x | s | _ <;> rcases finish with y | t | _
  case finite.finite =>
    rw [finite_lt, decide_eq_true_eq] at h
    rw [finite_sub, finite_lt]
    exact decide_eq_true (sub_pos.mpr h)
  case finite.infinite => exact h
  case infinite.finite =>
    cases s
    · cases h
    · rfl
  case infinite.infinite =>
    cases s <;> cases t
    · cases h
    · cases h
    · rfl
    · cases h
  all_goals cases h

end Shares

end TimeSpan

/-! ## A clock -/

namespace Field

variable {field : Field Exact} {n : ℕ}

/-- Adding the same number again and again adds its multiple. -/
theorem repeat_add (x h : Exact) (positive : 1 ≤ n) :
    Nat.repeat (· + h) n x = x + finite n * h := by
  induction n, positive using Nat.le_induction with
  | base =>
    change x + h = _
    cases h with
    | finite y => simp
    | infinite s => rw [TimeSpan.finite_mul_infinite (by simp)]
    | nan => rfl
  | succ n positive ih =>
    have real : (0 : ℝ) < n := Nat.cast_pos.mpr positive
    have next : (0 : ℝ) < (n + 1 : ℕ) := Nat.cast_pos.mpr n.succ_pos
    change Nat.repeat (· + h) n x + h = _
    rw [ih]
    cases h with
    | finite y =>
      cases x with
      | finite x =>
        simp only [finite_mul, finite_add, Nat.cast_succ]
        congr 1
        ring
      | infinite t => rfl
      | nan => rfl
    | infinite s =>
      -- An infinity that was added once stays whatever is added of it.
      rw [TimeSpan.finite_mul_infinite real, TimeSpan.finite_mul_infinite next]
      cases x with
      | finite x => cases s <;> rfl
      | infinite t => cases s <;> cases t <;> rfl
      | nan => rfl
    | nan => cases x <;> rfl

/-- The slopes of a clock weigh one step together. -/
theorem step_of_slopes (h : Exact) : h / 6 * (1 + 2 * 1 + 2 * 1 + 1) = h := by
  have weight : (1 + 2 * 1 + 2 * 1 + 1 : Exact) = finite 6 := by
    simp only [one_eq, two_eq, finite_mul, finite_add]
    norm_num
  have six : (6 : Exact) = finite 6 := congrArg finite (Nat.cast_ofNat)
  rw [weight, six]
  cases h with
  | finite y => rw [finite_div y (by norm_num), finite_mul, div_mul_cancel₀ y (by norm_num)]
  | infinite s =>
    rw [TimeSpan.infinite_div_finite (by norm_num)]
    exact TimeSpan.finite_mul_infinite (by norm_num) s
  | nan => rfl

/-- The first coordinate of a field that runs at the pace of time. -/
theorem x_step (clock : ∀ p, (field p).x = 1) (h : Exact) (p : Vec3 Exact) :
    (field.step h p).x = p.x + h := by
  change p.x + h / 6 * ((field _).x + 2 * (field _).x + 2 * (field _).x + (field _).x) = _
  simp only [clock]
  rw [step_of_slopes]

theorem x_repeat_step (clock : ∀ p, (field p).x = 1) (h : Exact) (p : Vec3 Exact) (n : ℕ) :
    (Nat.repeat (field.step h) n p).x = Nat.repeat (· + h) n p.x := by
  induction n with
  | zero => rfl
  | succ n ih =>
    change (field.step h (Nat.repeat (field.step h) n p)).x = _
    rw [x_step clock, ih]
    rfl

/-- All steps together take a clock from the start of the window to its end. -/
theorem x_integrate (clock : ∀ p, (field p).x = 1) (span : TimeSpan Exact) (p : Vec3 Exact) :
    (field.integrate span p).x = p.x + (span.finish - span.start) := by
  change (Nat.repeat (field.step span.stepSize) span.stepCount p).x = _
  rw [x_repeat_step clock, repeat_add _ _ span.one_le_stepCount, TimeSpan.stepSize, ofNat_eq,
    TimeSpan.mul_share span.one_le_stepCount]

end Field

/-! ## Engines -/

namespace ChaosConfig

variable {K : Type} [Scalar K] {config : ChaosConfig K}

theorem engine_of_isCountable (lorenz : config.lorenzSpan.IsCountable)
    (chua : config.chuaSpan.IsCountable) (fraction : K) :
    config.engine fraction = .ok (ChaosVector.sample config fraction) := by
  rw [engine, (TimeSpan.countSteps_of_isCountable lorenz).1,
    (TimeSpan.countSteps_of_isCountable chua).1]
  rfl

/-- An engine whose steps do not all fit into words ends the program. -/
theorem engine_of_not_isCountable
    (exceeds : ¬(config.lorenzSpan.IsCountable ∧ config.chuaSpan.IsCountable)) (fraction : K) :
    config.engine fraction = .error .stepOverflow := by
  unfold engine
  by_cases lorenz : config.lorenzSpan.IsCountable
  · have chua : ¬config.chuaSpan.IsCountable := fun fits => exceeds ⟨lorenz, fits⟩
    rw [(TimeSpan.countSteps_of_isCountable lorenz).1, TimeSpan.countSteps_of_not_isCountable chua]
    rfl
  · rw [TimeSpan.countSteps_of_not_isCountable lorenz]
    rfl

end ChaosConfig

/-! ## Accepted tunings -/

namespace EngineConfig

/-- The tunings that are accepted. -/
theorem validate_eq_ok_iff {K : Type} [Scalar K] {config : EngineConfig K} :
    config.validate = .ok () ↔
      (Scalar.lt 0 config.chaos.logisticR = true ∧ Scalar.le config.chaos.logisticR 4 = true) ∧
      spanIsSound config.chaos.lorenzSpan = true ∧ spanIsSound config.chaos.chuaSpan = true ∧
      (Scalar.lt 0 config.privacy.reyniAlpha = true ∧
        Scalar.lt (Scalar.abs (config.privacy.reyniAlpha - 1)) Privacy.orderResolution = false) ∧
      Scalar.lt 0 config.ciphertextScale = true := by
  unfold validate
  dsimp only
  split_ifs <;> grind

/-- A window from zero to a positive number is sound. -/
theorem spanIsSound_from_zero {finish : ℕ} {samples substeps : UInt64} (positive : 0 < finish)
    (several : 2 ≤ samples.toNat) (some_substep : 1 ≤ substeps.toNat) :
    spanIsSound (⟨0, Scalar.ofNat finish, samples, substeps⟩ : TimeSpan Exact) = true := by
  refine TimeSpan.sound_iff.mpr ⟨?_, several, some_substep⟩
  rw [zero_eq, ofNat_eq, finite_lt, decide_eq_true_eq]
  exact Nat.cast_pos.mpr positive

/-- The standard tuning with another window of the Lorenz flow. -/
noncomputable def standardOver (span : TimeSpan Exact) : EngineConfig Exact :=
  { standard with chaos := { ChaosConfig.standard with lorenzSpan := span } }

/-- The standard tuning is accepted over every sound window. -/
theorem validate_standardOver {span : TimeSpan Exact} (sound : spanIsSound span = true) :
    (standardOver span).validate = .ok () := by
  have size : ((Nat.pow 2 40 : ℕ) : ℝ) = 2 ^ 40 := Nat.cast_pow 2 40
  have four : (4 : Exact) = finite 4 := congrArg finite (Nat.cast_ofNat)
  have order : (PrivacyBounds.standard : PrivacyBounds Exact).reyniAlpha = finite 1.25 := rfl
  have rate : (ChaosConfig.standard : ChaosConfig Exact).logisticR = finite 3.999 := rfl
  refine validate_eq_ok_iff.mpr ⟨⟨?_, ?_⟩, sound, ?_, ⟨?_, ?_⟩, ?_⟩
  · change Scalar.lt 0 (ChaosConfig.standard : ChaosConfig Exact).logisticR = true
    rw [rate, zero_eq, finite_lt, decide_eq_true_eq]
    norm_num
  · change Scalar.le (ChaosConfig.standard : ChaosConfig Exact).logisticR 4 = true
    rw [rate, four, finite_le, decide_eq_true_eq]
    norm_num
  · have forty : 0 < 40 := by decide
    exact spanIsSound_from_zero forty (by decide) (by decide)
  · change Scalar.lt 0 (PrivacyBounds.standard : PrivacyBounds Exact).reyniAlpha = true
    rw [order, zero_eq, finite_lt, decide_eq_true_eq]
    norm_num
  · change Scalar.lt (Scalar.abs ((PrivacyBounds.standard : PrivacyBounds Exact).reyniAlpha - 1)) _
      = false
    rw [order, one_eq, finite_sub, abs_finite, Privacy.orderResolution_eq, finite_lt,
      decide_eq_false_iff_not, not_lt]
    norm_num
  · change Scalar.lt 0 (Scalar.ofNat (Nat.pow 2 40) : Exact) = true
    rw [zero_eq, ofNat_eq, size, finite_lt, decide_eq_true_eq]
    positivity

/-- The steps of an accepted tuning cover its windows. There are as many as there are substeps in
all intervals of a window, at least one; a step has a positive length, the steps make up the window
exactly, and a clock that runs along with any flow ends with it. The steps are counted in a word:
the count is right as long as their number fits, and otherwise there is none. The systems are run
exactly if the steps of both windows are counted. -/
theorem steps_cover_window {config : EngineConfig Exact} (accepted : config.validate = .ok ()) :
    (∀ span ∈ [config.chaos.lorenzSpan, config.chaos.chuaSpan],
      span.stepCount = (span.samples.toNat - 1) * span.substeps.toNat ∧ 1 ≤ span.stepCount ∧
      (span.IsCountable → ∃ count, span.countSteps = .ok count ∧ count.toNat = span.stepCount) ∧
      (¬span.IsCountable → span.countSteps = .error .stepOverflow) ∧
      Scalar.lt 0 span.stepSize = true ∧
      Scalar.ofNat span.stepCount * span.stepSize = span.finish - span.start ∧
      ∀ field : Field Exact, (∀ p, (field p).x = 1) → ∀ p,
        (field.integrate span p).x = p.x + (span.finish - span.start)) ∧
    ∀ fraction : Exact,
      (config.chaos.lorenzSpan.IsCountable ∧ config.chaos.chuaSpan.IsCountable →
        config.chaos.engine fraction = .ok (ChaosVector.sample config.chaos fraction)) ∧
      (¬(config.chaos.lorenzSpan.IsCountable ∧ config.chaos.chuaSpan.IsCountable) →
        config.chaos.engine fraction = .error .stepOverflow) := by
  rcases validate_eq_ok_iff.mp accepted with ⟨-, lorenz, chua, -⟩
  constructor
  · intro span inside
    have sound : spanIsSound span = true := by
      rcases List.mem_pair.mp inside with rfl | rfl
      · exact lorenz
      · exact chua
    rcases TimeSpan.sound_iff.mp sound with ⟨ordered, -, -⟩
    have positive := span.one_le_stepCount
    refine ⟨TimeSpan.stepCount_eq sound, positive, fun fits => ?_,
      TimeSpan.countSteps_of_not_isCountable, ?_, ?_,
      fun field clock => Field.x_integrate clock span⟩
    · exact ⟨_, TimeSpan.countSteps_of_isCountable fits⟩
    · exact TimeSpan.share_pos positive (TimeSpan.length_pos ordered)
    · exact TimeSpan.mul_share positive _
  · intro fraction
    refine ⟨fun fit => ?_, fun exceeds => ?_⟩
    · exact ChaosConfig.engine_of_isCountable fit.1 fit.2 fraction
    · exact ChaosConfig.engine_of_not_isCountable exceeds fraction

/-- The standard window of the Lorenz flow. -/
noncomputable def usualSpan : TimeSpan Exact := ⟨0, 20, 512, 8⟩

theorem usualSpan_isSound : spanIsSound usualSpan = true := by
  have positive : 0 < 20 := by norm_num
  exact spanIsSound_from_zero positive (by decide) (by decide)

theorem stepCount_usualSpan : usualSpan.stepCount = 4088 :=
  TimeSpan.stepCount_eq usualSpan_isSound

/-- The standard window of the Lorenz flow is covered by 4088 steps, and the systems are run. -/
theorem steps_cover_window_standard :
    (standardOver usualSpan).validate = .ok () ∧ usualSpan.countSteps = .ok 4088 ∧
      Scalar.ofNat 4088 * usualSpan.stepSize = usualSpan.finish - usualSpan.start ∧
      ∀ fraction, (standardOver usualSpan).chaos.engine fraction =
        .ok (ChaosVector.sample (standardOver usualSpan).chaos fraction) := by
  have accepted := validate_standardOver usualSpan_isSound
  rcases validate_eq_ok_iff.mp accepted with ⟨-, -, sound, -⟩
  have steps : (standardOver usualSpan).chaos.chuaSpan.stepCount = 8184 :=
    TimeSpan.stepCount_eq sound
  have lorenz : usualSpan.IsCountable := stepCount_usualSpan.trans_lt (by norm_num)
  have chua : (standardOver usualSpan).chaos.chuaSpan.IsCountable := steps.trans_lt (by norm_num)
  rcases steps_cover_window accepted with ⟨covered, engine⟩
  rcases covered usualSpan List.mem_cons_self with ⟨-, -, counted, -, -, length, -⟩
  rcases counted lorenz with ⟨count, found, size⟩
  have same : count = 4088 := UInt64.toNat_inj.mp (size.trans stepCount_usualSpan)
  rw [same] at found
  rw [stepCount_usualSpan] at length
  exact ⟨accepted, found, length, fun fraction => (engine fraction).1 ⟨lorenz, chua⟩⟩

/-- A window of `2 ^ 33` intervals with `2 ^ 31` steps in each: one step more than a word counts. -/
noncomputable def overfullSpan : TimeSpan Exact := ⟨0, 1, 8589934593, 2147483648⟩

/-- A window with one step more than a word counts is accepted, and its steps are not counted: the
systems are run for no seed. -/
theorem uncounted_steps :
    (standardOver overfullSpan).validate = .ok () ∧ overfullSpan.stepCount = 2 ^ 64 ∧
      overfullSpan.countSteps = .error .stepOverflow ∧
      ∀ fraction, (standardOver overfullSpan).chaos.engine fraction = .error .stepOverflow := by
  have sound : spanIsSound (⟨0, Scalar.ofNat 1, 8589934593, 2147483648⟩ : TimeSpan Exact) = true :=
    spanIsSound_from_zero (by decide) (by decide) (by decide)
  have full : overfullSpan.stepCount = 2 ^ 64 := TimeSpan.stepCount_eq sound
  have exceeds : ¬overfullSpan.IsCountable := full.not_lt
  exact ⟨validate_standardOver sound, full, TimeSpan.countSteps_of_not_isCountable exceeds,
    ChaosConfig.engine_of_not_isCountable fun both => exceeds both.1⟩

end EngineConfig

end Nonlocal
