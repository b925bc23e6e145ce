import Nonlocal.Proofs.Exact.Kernels
import Nonlocal.Proofs.Register.Ghz
import Nonlocal.Proofs.Register.Physical
import Nonlocal.Proofs.Run.Measure

/-!
The correlators of a chaos run in closed form.

A sample of chaos lands on the first strings of the diagonal. Their leading bits are zeros, so that
two qubits at the front see the whole noise along Z and nothing of it across
(`correlation_diagonalNoise_cons`). Together with what white noise leaves of the entangled state,
and with the trace that is divided out, this gives the three correlators of a run
(`ezph_correlators`).
-/

namespace Nonlocal

open Matrix Exact Term

/-! ## Noise on the first strings of the diagonal -/

section Diagonal

variable {q : ℕ} {noise : List ℝ}

theorem trace_diagonalNoise_of_length_le (short : noise.length ≤ basisSize q) :
    (diagonalNoise q noise).trace = (noise.sum : ℂ) := by
  rw [trace_diagonalNoise, List.take_of_length_le short]

/-- Noise that fits on the strings with a leading zero leaves the others alone. -/
theorem diagonalNoise_succ (short : noise.length ≤ basisSize q) :
    diagonalNoise (q + 1) noise = kron (diagonal ![1, 0]) (diagonalNoise q noise) := by
  ext i j
  obtain ⟨⟨b, k⟩, rfl⟩ := (splitBits q).symm.surjective i
  obtain ⟨⟨c, l⟩, rfl⟩ := (splitBits q).symm.surjective j
  change diagonalNoise (q + 1) noise (joinBits b k) (joinBits c l) =
    kron _ _ (joinBits b k) (joinBits c l)
  simp only [kron_apply, firstBit_joinBits, otherBits_joinBits, diagonalNoise, diagonal_apply,
    joinBits_inj]
  have above : noise[(joinBits 1 k).val]? = none := by
    apply List.getElem?_eq_none
    change noise.length ≤ 1 * basisSize q + k
    omega
  have below : (joinBits 0 k).val = k.val := by
    change 0 * basisSize q + k = k.val
    omega
  by_cases same : k = l
  · subst same
    fin_cases b <;> fin_cases c <;> simp [above, below]
  · simp [same]

/-- A first qubit sees of such noise what it sees of the bit zero. -/
theorem correlation_diagonalNoise_cons (short : noise.length ≤ basisSize q) (s : Setting Exact)
    {factors : List (Option (Setting Exact))} (size : factors.length = q) :
    correlation (diagonalNoise (q + 1) noise) (some s :: factors) =
      Real.cos s.theta.toReal * correlation (diagonalNoise q noise) factors := by
  rw [diagonalNoise_succ short]
  apply correlation_kron _ size
  simp [factorMatrix, Setting.matrix, trace_fin_two, Matrix.diagonal_mul]

end Diagonal

namespace Run

/-! ## The terms of a chaos run -/

/-- One setting on the first two qubits of the register. -/
def frontPair (s : Setting Exact) : List (Option (Setting Exact)) :=
  [some s, some s] ++ List.replicate (ezphQubits - 2) none

theorem frontPair_fits {s : Setting Exact} (h : s.isFinite = true) :
    Term.Fits ⟨frontPair s, finite 1⟩ 5 where
  size := rfl
  angles := fun t measured => by
    simp [frontPair] at measured
    rcases measured with rfl | rfl
    all_goals exact h
  sign := rfl

theorem correlation_frontPair_noise (s : Setting Exact) {noise : List ℝ}
    (short : noise.length ≤ basisSize 3) :
    correlation (diagonalNoise 5 noise) (frontPair s) =
      Real.cos s.theta.toReal ^ 2 * noise.sum := by
  have short' : noise.length ≤ basisSize 4 := short.trans (by decide)
  have rest : correlation (diagonalNoise 3 noise) (List.replicate 3 none) = noise.sum := by
    have unmeasured : ∀ f ∈ List.replicate 3 (none : Option (Setting Exact)), f = none :=
      fun f member => List.eq_of_mem_replicate member
    rw [correlation_of_unmeasured unmeasured rfl, trace_diagonalNoise_of_length_le short,
      Complex.ofReal_re]
  have second := @correlation_diagonalNoise_cons 3 noise short s (List.replicate 3 none) rfl
  have first :=
    @correlation_diagonalNoise_cons 4 noise short' s (some s :: List.replicate 3 none) rfl
  rw [second, rest] at first
  refine first.trans ?_
  ring

theorem correlation_frontPair_ghz (s : Setting Exact) (p : ℝ) :
    correlation (mixNoise p (projector (DensityMatrix.ghzVector 5))) (frontPair s) =
      Real.cos s.theta.toReal ^ 2 * (1 - p) := by
  have pair : ghzCorrelation 5 [s, s] = Real.cos s.theta.toReal ^ 2 := by
    simp [ghzCorrelation, sq]
  have closed : correlation (mixNoise p (projector (DensityMatrix.ghzVector 5))) (frontPair s) =
      (1 - p) * ghzCorrelation 5 [s, s] + p * if [s, s].length = 0 then 1 else 0 :=
    @correlation_noisy_ghz (frontPair s) (Nat.le_add_left 1 4) p
  rw [closed, pair, if_neg (by simp)]
  ring

/-! ## The disturbed register -/

/-- The noise that a sample of chaos injects, as real numbers. -/
noncomputable def noiseOf (chaos : ChaosVector Exact) : List ℝ :=
  [chaos.lorenz.x, chaos.chua.y, chaos.logistic, 0, 0].map (Exact.clamped (-1) 1)

theorem noise_eq (chaos : ChaosVector Exact) : chaos.noise = (noiseOf chaos).map finite := by
  rw [ChaosVector.noise, noiseOf, List.map_map]
  exact List.map_congr_left fun x _ => expectation_eq x

/-- The sum of the noise; a coordinate that is not a number does not take part. -/
noncomputable def totalNoise (chaos : ChaosVector Exact) : ℝ :=
  chaos.lorenz.x.clamped (-1) 1 + chaos.chua.y.clamped (-1) 1 + chaos.logistic.clamped (-1) 1

theorem sum_noiseOf (chaos : ChaosVector Exact) : (noiseOf chaos).sum = totalNoise chaos := by
  have quiet : (0 : Exact).clamped (-1) 1 = 0 := by
    rw [zero_eq, clamped]
    norm_num
  simp only [noiseOf, List.map_cons, List.map_nil, List.sum_cons, List.sum_nil, quiet, totalNoise]
  ring

/-- What is left of the correlation along Z when the share `p` of the register is white noise and
`s` is added to the trace. -/
noncomputable def remainingCorrelation (p s : ℝ) : ℝ :=
  if 1e-12 ≤ |1 + s| then (1 - p + s) / (1 + s) else 1 - p

variable [Kernels]

theorem exists_disturbedRegister (options : RunOptions Exact) (chaos : ChaosVector Exact) :
    ∃ M : Operator 5, disturbedRegister options chaos = .ofMatrix M ∧
      ∀ s, correlation M (frontPair s) = Real.cos s.theta.toReal ^ 2 *
        remainingCorrelation options.depolarizing.noiseLevel (totalNoise chaos) := by
  have noisy : (DensityMatrix.ghz ezphQubits).depolarize options.depolarizing = .ofMatrix
      (mixNoise options.depolarizing.noiseLevel (projector (DensityMatrix.ghzVector 5))) :=
    depolarize_ghz (by decide) (by decide) options.depolarizing
  rw [disturbedRegister, noisy, noise_eq, DensityMatrix.perturb_ofMatrix]
  generalize options.depolarizing.noiseLevel = p
  have short : (noiseOf chaos).length ≤ basisSize 3 := by
    rw [noiseOf, List.length_map]
    exact Nat.le_add_right 5 3
  have trace : (mixNoise p (projector (DensityMatrix.ghzVector 5)) +
      diagonalNoise 5 (noiseOf chaos)).trace = ((1 + totalNoise chaos : ℝ) : ℂ) := by
    have state := isState_ghz (q := 5) (by decide)
    rw [trace_add, trace_mixNoise p state.trace_eq,
      trace_diagonalNoise_of_length_le (short.trans (by decide)), sum_noiseOf]
    push_cast
    rfl
  have disturbed (s : Setting Exact) :
      correlation (mixNoise p (projector (DensityMatrix.ghzVector 5)) +
        diagonalNoise 5 (noiseOf chaos)) (frontPair s) =
      Real.cos s.theta.toReal ^ 2 * (1 - p + totalNoise chaos) := by
    rw [correlation_add, correlation_frontPair_ghz, correlation_frontPair_noise s short,
      sum_noiseOf]
    ring
  rw [trace, Complex.norm_real, Real.norm_eq_abs]
  split
  · next cancelled =>
    refine ⟨_, rfl, fun s => ?_⟩
    rw [correlation_frontPair_ghz, remainingCorrelation, if_neg (not_le.mpr cancelled)]
  · next kept =>
    refine ⟨_, rfl, fun s => ?_⟩
    rw [← Complex.ofReal_inv, correlation_smul, disturbed, remainingCorrelation,
      if_pos (not_lt.mp kept)]
    ring

/-! ## Runs -/

theorem pauliTerms_eq : (pauliTerms : List (Term Exact)) =
    [⟨frontPair ⟨finite (Real.pi / 2), finite 0⟩, finite 1⟩,
      ⟨frontPair ⟨finite (Real.pi / 2), finite (Real.pi / 2)⟩, finite 1⟩,
      ⟨frontPair ⟨finite 0, finite 0⟩, finite 1⟩] := by
  have quarter : (Scalar.pi / 2 : Exact) = finite (Real.pi / 2) := by
    rw [two_eq]
    exact half_finite Real.pi
  rw [pauliTerms, quarter, zero_eq, one_eq]
  rfl

/-- A chaos run with an accepted seed. It succeeds for every tuning, every source of chaos, every
noise level, every number of shots and every generator. Across the axis Z nothing is left of the
correlations of the first two qubits. Along it the white noise takes its share, and the sum of the
injected noise is added and divided out with the trace, unless it cancels the trace. -/
theorem ezph_correlators {settings : Option (BridgeSettings Exact)} {fraction : Exact}
    (accepted : Seed.fraction ((settings.map BridgeSettings.seed).getD fallbackSeed) =
      .ok fraction) (config : EngineConfig Exact) (source : ChaosSource Exact)
    (options : RunOptions Exact) (g : Generator) :
    let chaos := source fraction
    let s := chaos.lorenz.x.clamped (-1) 1 + chaos.chua.y.clamped (-1) 1 +
      chaos.logistic.clamped (-1) 1
    let p := options.depolarizing.noiseLevel
    ∃ report g', (ezph config source settings options).run g = (.ok report, g') ∧
      report.correlators = [finite 0, finite 0,
        finite (if 1e-12 ≤ |1 + s| then (1 - p + s) / (1 + s) else 1 - p)] := by
  intro chaos s p
  obtain ⟨M, register, correlations⟩ := exists_disturbedRegister options chaos
  have fits : ∀ t ∈ (pauliTerms : List (Term Exact)), t.Fits 5 := by
    rw [pauliTerms_eq]
    simp [frontPair_fits, Setting.isFinite]
  have evaluated := Correlators.evaluate_ofMatrix M fits
  rw [← register] at evaluated
  have run := (yields_ezph accepted evaluated (fun e _ => Sampler.isValid e) config).run g
  refine ⟨_, _, run, ?_⟩
  change (pauliTerms.map fun t : Term Exact => finite (correlation M t.factors)) = _
  rw [pauliTerms_eq]
  have across : Real.cos (Real.pi / 2) ^ 2 = 0 := by simp
  have along : Real.cos 0 ^ 2 = 1 := by simp
  simp only [List.map_cons, List.map_nil, correlations, toReal_finite, across, along, zero_mul,
    one_mul]
  rfl

omit [Kernels] in
/-- A run without settings. Chaos that cancels the trace is dropped, though one of its coordinates
is infinite and another one undefined; chaos in excess counts once. -/
theorem ezph_correlators_fallback :
    let _ : Kernels := .standard
    let rest := finite 0
    let source (x : Exact) : ChaosSource Exact :=
      fun _ => ⟨⟨x, rest, rest⟩, ⟨rest, .nan, rest⟩, rest⟩
    let options : RunOptions Exact := { shots := 4096, depolarizing := finite (1 / 4) }
    let g := Generator.ofSeed Sampler.chaosSeed
    (∃ fraction : Exact, Seed.fraction fallbackSeed = .ok fraction) ∧
    (∃ report g', (ezph .standard (source (.infinite true)) none options).run g =
        (.ok report, g') ∧ report.correlators = [finite 0, finite 0, finite (3 / 4)]) ∧
    ∃ report g', (ezph .standard (source (finite 7)) none options).run g = (.ok report, g') ∧
      report.correlators = [finite 0, finite 0, finite (7 / 8)] := by
  intro standard rest source options g
  have accepted : ∃ fraction : Exact, Seed.fraction fallbackSeed = .ok fraction := ⟨_, rfl⟩
  obtain ⟨fraction, read⟩ := accepted
  have level : options.depolarizing.noiseLevel = 1 / 4 := by
    norm_num [options, noiseLevel, clamped]
  have run (x : Exact) :=
    @ezph_correlators standard none fraction read .standard (source x) options g
  refine ⟨⟨fraction, read⟩, ?_, ?_⟩
  · obtain ⟨report, g', result, correlators⟩ := run (.infinite true)
    refine ⟨report, g', result, correlators.trans ?_⟩
    rw [level]
    norm_num [source, rest, clamped]
  · obtain ⟨report, g', result, correlators⟩ := run (finite 7)
    refine ⟨report, g', result, correlators.trans ?_⟩
    rw [level]
    norm_num [source, rest, clamped]

end Run

end Nonlocal
