import Nonlocal.Proofs.Exact.Kernels
import Nonlocal.Proofs.Register.Ghz
import Nonlocal.Proofs.Run.Measure
import Nonlocal.Proofs.Settings.Resolution

/-!
The hypergraph run in closed form.

A run on an admitted plan succeeds. Its correlators are those of the settings that the hyperedges
choose, in an entangled state of all qubits with a share of white noise, and its exact value is
their sum with the signs of the hyperedges (`hypergraph_outcome`).
-/

namespace Nonlocal

open Exact

/-- The correlator of a hyperedge in the entangled state of all qubits with the share `p` of white
noise; the noise alone adds to a hyperedge without participants. -/
noncomputable def edgeCorrelation (p : ℝ) (axes : List (AxisSet Exact)) (edge : Hyperedge Exact) :
    ℝ :=
  (1 - p) * ghzCorrelation axes.length (edge.settings axes) +
    p * if edge.participants.length = 0 then 1 else 0

/-- Signs of size one are real numbers. -/
theorem isFinite_of_sign {x : Exact} (h : (Scalar.eq x 1 || Scalar.eq x (-1)) = true) :
    Scalar.isFinite x = true := by
  cases x with
  | finite x => rfl
  | infinite s => simp [Scalar.eq, Exact.eq] at h
  | nan => simp [Scalar.eq, Exact.eq] at h

namespace Hyperedge.IsSound

variable {axes : List (AxisSet Exact)} {edge : Hyperedge Exact}

/-- The term of a sound hyperedge fits the register of all qubits. -/
theorem fits (sound : edge.IsSound axes) (soundAxes : ∀ axis ∈ axes, AxisSet.IsSound axis) :
    (HypergraphPlan.resolvedTerm axes edge).Fits axes.length where
  size := HypergraphPlan.qubits_resolvedTerm axes edge
  angles := fun s measured => by
    have chosen := List.reduceOption_mem_iff.mpr measured
    exact isFinite_of_mem_settings soundAxes (sound.perm_settings.mem_iff.mp chosen)
  sign := isFinite_of_sign sound.sign

theorem correlation_edgeFactors (sound : edge.IsSound axes) (pos : 1 ≤ axes.length) (p : ℝ) :
    correlation (mixNoise p (projector (DensityMatrix.ghzVector axes.length)))
      (HypergraphPlan.edgeFactors axes edge) = edgeCorrelation p axes edge := by
  have size := HypergraphPlan.length_edgeFactors axes edge
  have closed := correlation_noisy_ghz (pos.trans size.ge) p
  rw [size, ghzCorrelation_perm _ sound.perm_settings, sound.perm_settings.length_eq,
    sound.length_settings] at closed
  exact closed

end Hyperedge.IsSound

namespace Run

/-- A hypergraph run on an admitted plan. It succeeds for every noise level, every number of shots
and every generator; the choices of each hyperedge resolve to as many settings as it has
participants, the correlators follow in the order of the hyperedges, and the exact value is their
signed sum. -/
theorem hypergraph_outcome [Kernels] {axes : List (AxisSet Exact)}
    {hyperedges : List (Hyperedge Exact)} {target : Exact} {plan : HypergraphPlan Exact}
    (admitted : HypergraphPlan.of axes hyperedges target = .ok plan) (options : RunOptions Exact)
    (g : Generator) :
    let correlator := edgeCorrelation options.depolarizing.noiseLevel plan.axes
    (∀ edge ∈ plan.hyperedges,
      edge.choices.map (setting? plan.axes) = (edge.settings plan.axes).map some ∧
        (edge.settings plan.axes).length = edge.participants.length) ∧
    ∃ outcome g', (hypergraph plan options).run g = (.ok outcome, g') ∧
      outcome.correlators = (plan.hyperedges.map fun edge => finite (correlator edge)) ∧
      outcome.exact =
        finite (plan.hyperedges.map fun edge => edge.sign.toReal * correlator edge).sum := by
  intro correlator
  obtain ⟨-, sound⟩ := HypergraphPlan.of_eq_ok_iff.mp admitted
  obtain ⟨directions, shown⟩ := sound.exists_primaryDirections
  have correlations (edge) (inside : edge ∈ plan.hyperedges) :=
    (sound.hyperedges edge inside).correlation_edgeFactors sound.nonempty
      options.depolarizing.noiseLevel
  have fits : ∀ term ∈ plan.resolvedTerms, Term.Fits term plan.dims :=
    List.forall_mem_map.mpr fun edge inside => (sound.hyperedges edge inside).fits sound.axes
  have evaluated := Correlators.evaluate_ofMatrix
    (mixNoise options.depolarizing.noiseLevel (projector (DensityMatrix.ghzVector plan.dims))) fits
  rw [← depolarize_ghz sound.nonempty sound.bounded] at evaluated
  have yields := yields_hypergraph sound.terms_eq evaluated (fun e _ => Sampler.isValid e) shown
  have run := yields.run g
  refine ⟨fun edge inside => ?_, _, _, run, ?_, ?_⟩
  · have soundEdge := sound.hyperedges edge inside
    exact ⟨soundEdge.map_setting?, soundEdge.length_settings⟩
  · change List.map _ _ = _
    rw [HypergraphPlan.resolvedTerms, List.map_map]
    exact List.map_congr_left fun edge inside => congrArg finite (correlations edge inside)
  · change finite (List.map _ _).sum = _
    rw [HypergraphPlan.resolvedTerms, List.map_map]
    exact congrArg (fun values => finite (List.sum values)) (List.map_congr_left fun edge inside =>
      congrArg (edge.sign.toReal * ·) (correlations edge inside))

/-- A qubit with its primary setting only, at angle `theta` in the plane. -/
noncomputable def planarAxis (theta : ℝ) : AxisSet Exact :=
  Std.ExtTreeMap.empty.insert primarySelector (.planar (finite theta))

theorem planarAxis_isSound (theta : ℝ) : AxisSet.IsSound (planarAxis theta) where
  primary := by
    simp [AxisSet.primary?, planarAxis]
  finite := fun name s named => by
    rw [planarAxis, Std.ExtTreeMap.getElem?_insert] at named
    split at named
    · obtain rfl := Option.some.inj named
      exact Setting.isFinite_planar theta
    · simp at named

/-- A hyperedge on two qubits, taken in the reverse order. -/
def pairEdge : Hyperedge Exact :=
  ⟨[1, 0], [primarySelector, primarySelector], finite 1⟩

/-- A hyperedge without participants, which is counted negatively. -/
noncomputable def emptyEdge : Hyperedge Exact :=
  ⟨[], [], finite (-1)⟩

/-- Two qubits with one setting each, a hyperedge on both of them and one on none. -/
noncomputable def pairPlan : HypergraphPlan Exact :=
  ⟨[planarAxis (Real.pi / 2), planarAxis (Real.pi / 2)], [pairEdge, emptyEdge], finite 1⟩

theorem setting?_pairPlan {q : UInt64} (existing : q.toNat < 2) :
    setting? pairPlan.axes (q, primarySelector) = some (.planar (finite (Real.pi / 2))) := by
  have axis : pairPlan.axes[q.toNat]? = some (planarAxis (Real.pi / 2)) := by
    rcases Nat.lt_succ_iff_lt_or_eq.mp existing with zero | one
    · rw [Nat.lt_one_iff.mp zero]
      rfl
    · rw [one]
      rfl
  simp [setting?, axis, planarAxis]

theorem pairEdge_isSound : pairEdge.IsSound pairPlan.axes where
  arity := rfl
  sign := by simp [pairEdge]
  resolved := by
    simp [pairEdge, Hyperedge.choices, setting?_pairPlan]
  distinct := by decide

theorem emptyEdge_isSound : emptyEdge.IsSound pairPlan.axes where
  arity := rfl
  sign := by simp [emptyEdge]
  resolved := by simp [emptyEdge, Hyperedge.choices]
  distinct := .nil

theorem pairPlan_isSound : pairPlan.IsSound where
  nonempty := by decide
  bounded := by decide
  target := rfl
  axes := List.forall_mem_cons.mpr
    ⟨planarAxis_isSound _, List.forall_mem_singleton.mpr (planarAxis_isSound _)⟩
  hyperedges := List.forall_mem_cons.mpr
    ⟨pairEdge_isSound, List.forall_mem_singleton.mpr emptyEdge_isSound⟩

/-- White noise halves the correlator of the pair, and leaves that of the hyperedge without
participants as it is. -/
theorem hypergraph_outcome_pairPlan :
    let _ : Kernels := .standard
    HypergraphPlan.of pairPlan.axes pairPlan.hyperedges pairPlan.targetViolation = .ok pairPlan ∧
      ∃ outcome g', (hypergraph pairPlan { shots := 4096, depolarizing := finite 3 }).run
          (.ofSeed Sampler.correlatorSeed) = (.ok outcome, g') ∧
        outcome.correlators = [finite (1 / 2), finite 1] ∧ outcome.exact = finite (-1 / 2) := by
  intro standard
  have admitted : HypergraphPlan.of pairPlan.axes pairPlan.hyperedges pairPlan.targetViolation =
      .ok pairPlan := HypergraphPlan.of_eq_ok_iff.mpr ⟨rfl, pairPlan_isSound⟩
  obtain ⟨-, outcome, g', run, correlators, exact⟩ := hypergraph_outcome admitted
    { shots := 4096, depolarizing := finite 3 } (.ofSeed Sampler.correlatorSeed)
  have noise : (finite 3).noiseLevel = 1 / 2 := by
    norm_num [noiseLevel, clamped]
  have size : pairPlan.axes.length = 2 := rfl
  have settings : pairEdge.settings pairPlan.axes =
      [.planar (finite (Real.pi / 2)), .planar (finite (Real.pi / 2))] := by
    simp [Hyperedge.settings, Hyperedge.choices, pairEdge, setting?_pairPlan]
  have pair : edgeCorrelation (1 / 2) pairPlan.axes pairEdge = 1 / 2 := by
    rw [edgeCorrelation, settings, size]
    simp [ghzCorrelation, pairEdge, Setting.planar]
    norm_num
  have empty : edgeCorrelation (1 / 2) pairPlan.axes emptyEdge = 1 := by
    rw [edgeCorrelation, size]
    norm_num [ghzCorrelation, Hyperedge.settings, Hyperedge.choices, emptyEdge]
  refine ⟨admitted, outcome, g', run, ?_, ?_⟩
  · rw [correlators, noise]
    change [finite (edgeCorrelation (1 / 2) pairPlan.axes pairEdge),
      finite (edgeCorrelation (1 / 2) pairPlan.axes emptyEdge)] = _
    rw [pair, empty]
  · rw [exact, noise]
    change finite (1 * edgeCorrelation (1 / 2) pairPlan.axes pairEdge +
      (-1 * edgeCorrelation (1 / 2) pairPlan.axes emptyEdge + 0)) = _
    rw [pair, empty]
    norm_num

end Run

end Nonlocal
