import Nonlocal.Proofs.Register.Ghz
import Nonlocal.Proofs.Register.Representation

/-!
Depolarizing again and again.

Two channels in a row are one channel, which keeps the product of what the two keep of the state
(`mixNoise_mixNoise`). So a list of channels keeps a product over the list, whatever its order, and
the rest is white noise (`DensityMatrix.foldl_depolarize_ofMatrix`). On correlators the channels act
alike: what is measured is scaled down, and a term without a measurement shows the trace as before.
Main statement: `depolarizing_composes`.
-/

namespace Nonlocal

open Matrix Exact

variable {q : ℕ}

theorem mixNoise_mixNoise (p r : ℝ) (M : Operator q) :
    mixNoise p (mixNoise r M) = mixNoise (1 - (1 - p) * (1 - r)) M := by
  have white : (1 - p) * (r / basisSize q) + p / basisSize q =
      (1 - (1 - p) * (1 - r)) / basisSize q := by ring
  rw [mixNoise, mixNoise, mixNoise, smul_add, smul_smul, smul_smul, add_assoc, ← add_smul,
    sub_sub_cancel, ← white]
  push_cast
  rfl

/-- What is left of a state after depolarizing it with one probability after another. -/
noncomputable def keptShare (ps : List Exact) : ℝ :=
  (ps.map fun p => 1 - p.noiseLevel).prod

/-- The order of the probabilities does not matter. -/
theorem keptShare_perm {ps rs : List Exact} (same : rs.Perm ps) : keptShare rs = keptShare ps :=
  (same.map _).prod_eq

theorem DensityMatrix.foldl_depolarize_ofMatrix (ps : List Exact) (M : Operator q) :
    ps.foldl depolarize (ofMatrix M) = ofMatrix (mixNoise (1 - keptShare ps) M) := by
  induction ps generalizing M with
  | nil => rw [keptShare, List.map_nil, List.prod_nil, sub_self, mixNoise_zero, List.foldl_nil]
  | cons p rest ih =>
    have combined : 1 - (1 - (1 - keptShare rest)) * (1 - p.noiseLevel) =
        1 - keptShare (p :: rest) := by
      rw [sub_sub_cancel, mul_comm, keptShare, keptShare, List.map_cons, List.prod_cons]
    rw [List.foldl_cons, depolarize_ofMatrix, ih, mixNoise_mixNoise, combined]

/-- A term measures nothing exactly if no setting is left of its factors. -/
theorem length_reduceOption_eq_zero_iff {α : Type} {factors : List (Option α)} :
    factors.reduceOption.length = 0 ↔ factors.all Option.isNone = true := by
  induction factors with
  | nil => exact ⟨fun _ => rfl, fun _ => rfl⟩
  | cons f rest ih =>
    cases f with
    | none => rw [List.reduceOption_cons_of_none, ih, List.all_cons, Option.isNone_none,
        Bool.true_and]
    | some x => simp [List.reduceOption_cons_of_some]

/-- A term in a state that has been depolarized. -/
theorem Term.expectation_foldl_depolarize (ps : List Exact) (M : Operator q) {t : Term Exact}
    (angles : Term.AnglesFinite t.factors) (size : t.qubits = q)
    (size' : t.qubits = (ps.foldl DensityMatrix.depolarize (.ofMatrix M)).qubits) :
    t.expectation (ps.foldl DensityMatrix.depolarize (.ofMatrix M)) size' =
      finite (keptShare ps * correlation M t.factors +
        (1 - keptShare ps) * if t.factors.all Option.isNone then 1 else 0) := by
  rcases t with ⟨factors, sign⟩
  change factors.length = q at size
  subst size
  have noisy := DensityMatrix.foldl_depolarize_ofMatrix ps M
  generalize ps.foldl DensityMatrix.depolarize (.ofMatrix M) = σ at noisy size' ⊢
  subst noisy
  rw [Term.expectation_ofMatrix angles, correlation_mixNoise, sub_sub_cancel]
  simp only [length_reduceOption_eq_zero_iff]

/-- Depolarizing with one probability after another, in any state that the simulator reaches. The
share of the state that is kept is the product of what each clamped probability leaves, and the rest
is white noise; the order of the probabilities does not matter. The value of a term is scaled by the
same share, and a term without a measurement gets the rest back. -/
theorem depolarizing_composes {ρ : DensityMatrix Exact} (prepared : Prepared ρ)
    (steps : List Noise) (ps : List Exact) :
    let σ := Noise.run steps ρ
    let noisy := ps.foldl DensityMatrix.depolarize σ
    let c : ℝ := (ps.map fun p => 1 - p.clamped 0 (1 / 2)).prod
    (∃ M : Operator σ.qubits, σ = .ofMatrix M ∧
      noisy = .ofMatrix ((c : ℂ) • M + (((1 - c) / σ.dimension : ℝ) : ℂ) • 1)) ∧
    (∀ rs : List Exact, rs.Perm ps → rs.foldl DensityMatrix.depolarize σ = noisy) ∧
    ∀ (t : Term Exact) (size : t.qubits = σ.qubits), Term.AnglesFinite t.factors →
      ∃ (size' : t.qubits = noisy.qubits) (x : ℝ), t.expectation σ size = finite x ∧
        t.expectation noisy size' =
          finite (c * x + (1 - c) * if t.factors.all Option.isNone then 1 else 0) := by
  rcases prepared.isState with ⟨q, -, -, M₀, start, physical⟩
  rcases Noise.run_isNormalized steps ⟨M₀, start, physical.isNormalized⟩ with ⟨M, result, -⟩
  rw [result]
  intro σ noisy c
  have mixed : noisy = .ofMatrix (mixNoise (1 - c) M) :=
    DensityMatrix.foldl_depolarize_ofMatrix ps M
  refine ⟨⟨M, rfl, ?_⟩, fun rs same => ?_, fun t size angles => ?_⟩
  · rw [mixed, mixNoise, sub_sub_cancel]
    rfl
  · rw [mixed]
    exact (DensityMatrix.foldl_depolarize_ofMatrix rs M).trans (by rw [keptShare_perm same]; rfl)
  · have register : noisy.qubits = q := congrArg DensityMatrix.qubits mixed
    exact ⟨size.trans register.symm, _, Term.expectation_ofMatrix angles M size,
      Term.expectation_foldl_depolarize ps M angles size _⟩

/-- A state whose diagonal was disturbed, depolarized too much, a little and not at all: three
eighths of the correlator are left in either order, and of the term that measures nothing as much,
with the rest of one added. -/
theorem depolarizing_composes_disturbed :
    let σ := Noise.run [.perturb [-1, 2, 1 / 2]] (.ghz 2)
    let noisy := [finite 3, finite (1 / 4), .nan].foldl DensityMatrix.depolarize σ
    let pair : Term Exact := ⟨[some ⟨finite 0, finite 0⟩, some ⟨finite 0, finite 0⟩], finite 1⟩
    let rest : Term Exact := ⟨[none, none], finite 1⟩
    [finite (1 / 4), .nan, finite 3].foldl DensityMatrix.depolarize σ = noisy ∧
    (∃ (size : pair.qubits = σ.qubits) (size' : pair.qubits = noisy.qubits) (x : ℝ),
      pair.expectation σ size = finite x ∧ pair.expectation noisy size' = finite (3 / 8 * x)) ∧
    ∃ (size : rest.qubits = σ.qubits) (size' : rest.qubits = noisy.qubits) (x : ℝ),
      rest.expectation σ size = finite x ∧
        rest.expectation noisy size' = finite (3 / 8 * x + 5 / 8) := by
  intro σ noisy pair rest
  have register : σ.qubits = 2 :=
    (Noise.qubits_run _ _).trans (DensityMatrix.qubits_ghz (by decide) (by decide))
  have share : ([finite 3, finite (1 / 4), .nan].map fun p => 1 - p.clamped 0 (1 / 2)).prod =
      3 / 8 := by
    norm_num [clamped]
  have measured : Term.AnglesFinite pair.factors := by
    intro s inside
    simp only [pair, List.mem_cons, Option.some.injEq, List.not_mem_nil, or_false,
      or_self] at inside
    rw [inside]
    rfl
  have unmeasured : Term.AnglesFinite rest.factors := by
    intro s inside
    simp [rest] at inside
  rcases depolarizing_composes (.ghz 2) [.perturb [-1, 2, 1 / 2]]
    [finite 3, finite (1 / 4), .nan] with ⟨-, reordered, values⟩
  rw [share] at values
  have rotated :
      ([finite (1 / 4), .nan] ++ [finite 3]).Perm ([finite 3] ++ [finite (1 / 4), .nan]) :=
    List.perm_append_comm
  refine ⟨reordered _ rotated, ?_, ?_⟩
  · rcases values pair register.symm measured with ⟨size', x, before, after⟩
    refine ⟨register.symm, size', x, before, after.trans ?_⟩
    simp [pair]
  · rcases values rest register.symm unmeasured with ⟨size', x, before, after⟩
    refine ⟨register.symm, size', x, before, after.trans ?_⟩
    norm_num [rest]

end Nonlocal
