import Nonlocal.Proofs.Binary64.Functions
import Nonlocal.Proofs.Register.Expectation
import Nonlocal.Proofs.Run.Count
import Nonlocal.Proofs.Run.Failure

/-!
What the runs do with their budget of shots.

Every term gets the same share of the budget, rounded down but never less than one shot, so that the
terms together stay within the budget unless it is smaller than their number, and one more shot for
each would exceed it (`Clamp.lt_shotsPerTerm_succ_mul`). What is sampled from these shares is a
tally (`Sampler.IsTally`): an estimate for each term, and each estimate a count. The outcomes of all
plans are tallies, and so is the report of a chaos run. Main statement:
`Run.sampling_within_budget`.
-/

namespace Nonlocal

/-! ## Shares -/

namespace Clamp

variable (total : Int64) (terms : Nat)

theorem toNat_shotsPerTerm :
    (shotsPerTerm total terms).toNat = Nat.max 1 (total.toInt.toNat / Nat.max 1 terms) := by
  have quotient : total.toInt.toNat / Nat.max 1 terms ≤ total.toInt.toNat := Nat.div_le_self _ _
  have bounded : total.toInt.toNat < 2 ^ 63 := by
    have := total.toInt_lt
    omega
  have room : total.toInt.toNat / Nat.max 1 terms < 2 ^ 64 := by omega
  exact UInt64.toNat_ofNat_of_lt' (Nat.max_lt.mpr ⟨by decide, room⟩)

theorem one_le_shotsPerTerm : 1 ≤ (shotsPerTerm total terms).toNat := by
  rw [toNat_shotsPerTerm]
  exact Nat.le_max_left _ _

/-- The shares of all terms stay within the budget, unless it is below the number of terms. -/
theorem shotsPerTerm_mul_le :
    ((shotsPerTerm total terms).toNat * terms : ℤ) ≤ max total.toInt terms := by
  rw [toNat_shotsPerTerm]
  rcases Nat.eq_zero_or_pos terms with rfl | some_term
  · simp
  · have divisor : Nat.max 1 terms = terms := Nat.max_eq_right some_term
    have rounded := Nat.div_mul_le_self total.toInt.toNat terms
    rw [divisor]
    rcases Nat.le_total 1 (total.toInt.toNat / terms) with large | small
    · have share : Nat.max 1 (total.toInt.toNat / terms) = total.toInt.toNat / terms :=
        Nat.max_eq_right large
      have positive : 0 < total.toInt.toNat / terms * terms := Nat.mul_pos large some_term
      rw [share]
      have cast : ((total.toInt.toNat / terms * terms : ℕ) : ℤ) ≤ total.toInt := by omega
      push_cast at cast
      exact le_max_of_le_left cast
    · have share : Nat.max 1 (total.toInt.toNat / terms) = 1 := Nat.max_eq_left small
      rw [share, Nat.cast_one, one_mul]
      exact le_max_right _ _

/-- One more shot for each term would exceed the budget. -/
theorem lt_shotsPerTerm_succ_mul (some_term : 0 < terms) :
    total.toInt < ((shotsPerTerm total terms).toNat + 1) * terms := by
  have divisor : Nat.max 1 terms = terms := Nat.max_eq_right some_term
  have share : total.toInt.toNat / terms ≤ (shotsPerTerm total terms).toNat := by
    rw [toNat_shotsPerTerm, divisor]
    exact Nat.le_max_right _ _
  have rounded : total.toInt.toNat < ((shotsPerTerm total terms).toNat + 1) * terms :=
    (Nat.div_lt_iff_lt_mul some_term).mp (Nat.lt_succ_of_le share)
  have cast : total.toInt < (((shotsPerTerm total terms).toNat + 1) * terms : ℕ) := by omega
  exact_mod_cast cast

end Clamp

/-! ## Tallies -/

namespace Sampler

variable {K : Type} [Numerics K]

/-- The estimates of `terms` correlators, sampled with a share of `total` shots each: no term is
left out, the shares make the most of the budget, and every estimate counts the shots of its
correlator. -/
structure IsTally (total : Int64) (terms : Nat) (correlators : List K) (shots : UInt64)
    (estimates : List K) : Prop where
  size : estimates.length = terms
  positive : 1 ≤ shots.toNat
  within_budget : (shots.toNat * terms : ℤ) ≤ max total.toInt terms
  exhausted : 0 < terms → total.toInt < (shots.toNat + 1) * terms
  counted : List.Forall₂ (fun e v => ∃ g k, IsCount e shots g k ∧ v = excess k shots.toNat)
    correlators estimates

/-- The sum of the estimates, each of them counted positively or negatively. -/
def IsSignedSum (estimates : List K) (sampled : K) : Prop :=
  ∃ signs : List K, signs.length = estimates.length ∧ (∀ s ∈ signs, s = 1 ∨ s = -1) ∧
    sampled = Correlators.signedSum signs estimates

theorem counted_estimates [HasProbabilities K] [HasCounts K] [HasExactEnds K]
    {shots : UInt64} (positive : 1 ≤ shots.toNat) (es : List K) (g : Generator) :
    List.Forall₂ (fun e v => ∃ g k, IsCount e shots g k ∧ v = excess k shots.toNat) es
      (estimates shots es g).1 := by
  have total : Nat.max 1 shots.toNat = shots.toNat := Nat.max_eq_right positive
  induction es generalizing g with
  | nil => exact .nil
  | cons e rest ih =>
    refine .cons ⟨g, _, isCount_counted e shots g, ?_⟩ (ih _)
    change excess _ (Nat.max 1 shots.toNat) = excess _ shots.toNat
    rw [total]

/-! ## Exact numbers -/

section ExactTallies

open Exact

variable [Kernels]

theorem IsTally.exists_finite {total : Int64} {terms : ℕ} {correlators estimates : List Exact}
    {shots : UInt64} (tally : IsTally total terms correlators shots estimates) :
    ∀ v ∈ estimates, ∃ x : ℝ, v = finite x ∧ |x| ≤ 1 := by
  have size : Nat.max 1 shots.toNat = shots.toNat := Nat.max_eq_right tally.positive
  intro v inside
  rcases List.mem_iff_getElem.mp inside with ⟨i, room, rfl⟩
  have room' : i < correlators.length := tally.counted.length_eq ▸ room
  rcases (List.forall₂_iff_get.mp tally.counted).2 i room' room with ⟨g, k, count, same⟩
  have le : k ≤ shots.toNat := size ▸ count.le_shots
  exact ⟨_, same.trans (excess_finite le tally.positive), abs_ratio_le_one le tally.positive⟩

/-- The sum over a tally is not larger than the number of terms. -/
theorem IsTally.exists_sum {total : Int64} {terms : ℕ} {correlators estimates : List Exact}
    {shots : UInt64} (tally : IsTally total terms correlators shots estimates) {sampled : Exact}
    (sum : IsSignedSum estimates sampled) : ∃ x : ℝ, sampled = finite x ∧ |x| ≤ terms := by
  rcases sum with ⟨signs, paired, signed, rfl⟩
  have unit : ∀ s ∈ signs, s = finite s.toReal ∧ |s.toReal| = 1 := by
    intro s inside
    rcases signed s inside with rfl | rfl
    · simp
    · simp
  have bounded : ∀ v ∈ estimates, v = finite v.toReal ∧ |v.toReal| ≤ 1 := by
    intro v inside
    rcases tally.exists_finite v inside with ⟨x, rfl, bound⟩
    exact ⟨rfl, bound⟩
  have firsts : (signs.zip estimates).map Prod.fst = signs := List.map_fst_zip paired.le
  have seconds : (signs.zip estimates).map Prod.snd = estimates := List.map_snd_zip paired.ge
  have left : signs = (signs.zip estimates).map fun p => finite p.1.toReal :=
    firsts.symm.trans (List.map_congr_left fun p inside => (unit _ (List.of_mem_zip inside).1).1)
  have right : estimates = (signs.zip estimates).map fun p => finite p.2.toReal :=
    seconds.symm.trans
      (List.map_congr_left fun p inside => (bounded _ (List.of_mem_zip inside).2).1)
  have total : Correlators.signedSum signs estimates =
      finite ((signs.zip estimates).map fun p => p.1.toReal * p.2.toReal).sum :=
    (congrArg₂ Correlators.signedSum left right).trans (Correlators.signedSum_finite _ _ _)
  have size : (signs.zip estimates).length = terms := by
    rw [List.length_zip, paired, min_self, tally.size]
  refine ⟨_, total, size ▸ abs_sum_le_length fun p inside => ?_⟩
  rcases List.of_mem_zip inside with ⟨sign, estimate⟩
  rw [abs_mul, (unit _ sign).2, one_mul]
  exact (bounded _ estimate).2

end ExactTallies

end Sampler

namespace Correlators

variable {K : Type} [Scalar K] {ρ : DensityMatrix K} {terms : List (Term K)}

theorem length_valuesFrom {index : Nat} {values : List K}
    (found : valuesFrom ρ index terms = .ok values) : values.length = terms.length := by
  induction terms generalizing index values with
  | nil =>
    cases found
    rfl
  | cons t rest ih =>
    rw [valuesFrom] at found
    split at found
    · rcases Json.bind_eq_ok.mp found with ⟨later, foundLater, same⟩
      cases same
      exact congrArg (· + 1) (ih foundLater)
    · cases found

/-- Evaluated terms have a value and a sign each. -/
theorem shape_of_evaluate {c : Correlators K} (evaluated : evaluate ρ terms = .ok c) :
    c.values.length = terms.length ∧ c.signs = terms.map Term.sign := by
  rcases Json.bind_eq_ok.mp evaluated with ⟨values, found, same⟩
  cases same
  exact ⟨length_valuesFrom found, rfl⟩

end Correlators

namespace Run

open Sampler

variable {K : Type} [Numerics K] [HasProbabilities K] [HasCounts K] [HasExactEnds K]
  {ρ : DensityMatrix K}
  {terms : List (Term K)} {c : Correlators K}

theorem isTally_measured (evaluated : Correlators.evaluate ρ terms = .ok c) (shots : Int64)
    (g : Generator) :
    let m := (measured c terms.length shots g).1
    IsTally shots terms.length c.values m.shotsPerTerm m.estimates := by
  intro m
  rcases Correlators.shape_of_evaluate evaluated with ⟨values, signs⟩
  have drawn : m.estimates = (estimates (Clamp.shotsPerTerm shots terms.length) c.values g).1 := by
    have all : c.values.take c.signs.length = c.values := by
      rw [signs, List.length_map, ← values, List.take_length]
    change (estimates _ (c.values.take c.signs.length) g).1 = _
    rw [all]
  have positive := Clamp.one_le_shotsPerTerm shots terms.length
  have counted := counted_estimates positive c.values g
  rw [drawn]
  exact {
    size := counted.length_eq.symm.trans values
    positive
    within_budget := Clamp.shotsPerTerm_mul_le shots terms.length
    exhausted := Clamp.lt_shotsPerTerm_succ_mul shots terms.length
    counted }

theorem isSignedSum_measured (evaluated : Correlators.evaluate ρ terms = .ok c)
    (signed : ∀ t ∈ terms, t.sign = 1 ∨ t.sign = -1) (shots : Int64) (g : Generator) :
    let m := (measured c terms.length shots g).1
    IsSignedSum m.estimates m.sampled := by
  intro m
  rcases Correlators.shape_of_evaluate evaluated with ⟨-, signs⟩
  refine ⟨c.signs, ?_, ?_, rfl⟩
  · rw [(isTally_measured evaluated shots g).size, signs, List.length_map]
  · rw [signs]
    exact List.forall_mem_map.mpr signed

end Run

/-! ## Outcomes -/

open Sampler in
/-- The outcomes in a report are tallies: four terms of a two-party plan, and a term for each
hyperedge of a hypergraph plan. -/
structure SandboxReport.IsTallied {K : Type} [Numerics K] (total : Int64) (hyperedges : Nat)
    (report : SandboxReport K) : Prop where
  twoQubit : ∀ o ∈ report.twoQubit, IsTally total 4 o.correlators o.shotsPerTerm o.sampledTerms ∧
    IsSignedSum o.sampledTerms o.sampled
  fiveD : ∀ o ∈ report.fiveD,
    IsTally total hyperedges o.correlators o.shotsPerTerm o.sampledTerms ∧
      IsSignedSum o.sampledTerms o.sampled

namespace Run

open Sampler

variable {K : Type} [Numerics K] [HasProbabilities K] [HasCounts K] [HasExactEnds K]
  {options : RunOptions K} {g : Generator}

omit [HasProbabilities K] [HasCounts K] [HasExactEnds K] in
theorem signed_twoParty (plan : TwoPartyPlan K) :
    ∀ t ∈ plan.terms, t.sign = 1 ∨ t.sign = -1 := by
  intro t inside
  simp only [TwoPartyPlan.terms, chshTerms, List.mem_cons, List.not_mem_nil, or_false] at inside
  rcases inside with rfl | rfl | rfl | rfl
  · exact .inl rfl
  · exact .inl rfl
  · exact .inl rfl
  · exact .inr rfl

theorem isTally_of_run_twoParty {plan : TwoPartyPlan K} {o : TwoPartyOutcome K}
    (ran : ((twoParty plan options).run g).1 = .ok o) :
    IsTally options.shots 4 o.correlators o.shotsPerTerm o.sampledTerms ∧
      IsSignedSum o.sampledTerms o.sampled := by
  have fits := fits_twoParty plan options.depolarizing
  rcases (Correlators.exists_evaluate_iff plan.terms).mpr fits with ⟨c, evaluated⟩
  rw [(yields_twoParty evaluated fun e _ => isValid e).eq_of_ok ran]
  constructor
  · exact isTally_measured evaluated options.shots g
  · exact isSignedSum_measured evaluated (signed_twoParty plan) options.shots g

theorem isTally_of_run_hypergraph {plan : HypergraphPlan K} (sound : plan.IsSound)
    {o : HypergraphOutcome K} (ran : ((hypergraph plan options).run g).1 = .ok o) :
    IsTally options.shots plan.hyperedges.length o.correlators o.shotsPerTerm o.sampledTerms ∧
      IsSignedSum o.sampledTerms o.sampled := by
  have fits := fits_hypergraph sound options.depolarizing
  rcases (Correlators.exists_evaluate_iff _).mpr fits with ⟨c, evaluated⟩
  rcases sound.exists_primaryDirections with ⟨directions, shown⟩
  have signed : ∀ t ∈ plan.resolvedTerms, t.sign = 1 ∨ t.sign = -1 :=
    List.forall_mem_map.mpr fun edge inside => HasExactEnds.unit (sound.hyperedges edge inside).sign
  have size := plan.length_resolvedTerms
  rw [(yields_hypergraph sound.terms_eq evaluated (fun e _ => isValid e) shown).eq_of_ok ran]
  constructor
  · exact size ▸ isTally_measured evaluated options.shots g
  · exact isSignedSum_measured evaluated signed options.shots g

/-- Entering the outcome of a plan keeps the outcomes tallied. -/
theorem isTallied_of_run_enter {hyperedges : Nat} {plan : EvaluationPlan K} (sound : plan.IsSound)
    (counted : ∀ p, plan = .hypergraph p → p.hyperedges.length = hyperedges)
    {before after : SandboxReport K} (tallied : before.IsTallied options.shots hyperedges)
    (ran : ((enter options before plan).run g).1 = .ok after) :
    after.IsTallied options.shots hyperedges := by
  rcases plan with plan | plan
  · rcases exists_of_run_enter_twoParty ran with ⟨o, outcome, rfl⟩
    refine ⟨?_, tallied.fiveD⟩
    exact fun _ entered => Option.some.inj entered ▸ isTally_of_run_twoParty outcome
  · rcases exists_of_run_enter_hypergraph ran with ⟨o, outcome, rfl⟩
    refine ⟨tallied.twoQubit, ?_⟩
    have tally := isTally_of_run_hypergraph sound outcome
    rw [counted plan rfl] at tally
    exact fun _ entered => Option.some.inj entered ▸ tally

theorem isTallied_of_run_sandbox {settings : BridgeSettings K} {report : SandboxReport K}
    (ran : ((sandbox settings options).run g).1 = .ok report) :
    report.IsTallied options.shots settings.hyperedges.length := by
  refine invariant_of_run_sandbox ran ⟨nofun, nofun⟩ fun plans found plan inside _ _ _ kept => ?_
  refine isTallied_of_run_enter (BridgeSettings.isSound_of_plans found plan inside) ?_ kept
  rintro p rfl
  rw [BridgeSettings.hyperedges_of_mem_plans found inside]

theorem isTally_of_run_ezph {config : EngineConfig K} {source : ChaosSource K}
    {settings : Option (BridgeSettings K)} {report : EzphReport K}
    (ran : ((ezph config source settings options).run g).1 = .ok report) :
    IsTally options.shots 3 report.correlators report.shotsPerTerm report.sampled := by
  rcases exists_fraction_of_run_ezph ran with ⟨fraction, found⟩
  have fits := fits_ezph options (source fraction)
  rcases (Correlators.exists_evaluate_iff pauliTerms).mpr fits with ⟨c, evaluated⟩
  rw [(yields_ezph found evaluated (fun e _ => isValid e) config).eq_of_ok ran]
  exact isTally_measured evaluated options.shots g

/-- Sampling stays within its budget. Whatever the expectation value, the number of shots and the
generator are, an estimate is drawn, and it counts how many of the shots had the first outcome. A
correlator run has an outcome for each of its plans; all of them are tallies of the budget with an
estimate for each term, and so is a chaos run. Read as exact numbers, an estimate is the ratio
`(2 k - n) / n` of a count, which lies between minus one and one and is the end of this range for an
expectation value at the end or beyond it, and the sum over a tally is within the number of terms. -/
theorem sampling_within_budget {K : Type} [Numerics K] [HasProbabilities K] [HasCounts K]
    [HasExactEnds K] :
    (∀ (e : K) (shots : UInt64) (g : Generator), ∃ k, IsCount e shots g k ∧
      |ratio k (Nat.max 1 shots.toNat)| ≤ 1 ∧
      (Scalar.le 1 e = true → ratio k (Nat.max 1 shots.toNat) = 1) ∧
      (Scalar.le e (-1) = true → ratio k (Nat.max 1 shots.toNat) = -1)) ∧
    (∀ (settings : BridgeSettings K) (options : RunOptions K) (g : Generator)
      (report : SandboxReport K), ((sandbox settings options).run g).1 = .ok report →
        (∃ plans, settings.plans = .ok plans ∧ ∀ plan ∈ plans, report.covers plan = true) ∧
        report.IsTallied options.shots settings.hyperedges.length) ∧
    (∀ (config : EngineConfig K) (source : ChaosSource K) (settings : Option (BridgeSettings K))
      (options : RunOptions K) (g : Generator) (report : EzphReport K),
      ((ezph config source settings options).run g).1 = .ok report →
        IsTally options.shots 3 report.correlators report.shotsPerTerm report.sampled) ∧
    (∀ k n : ℕ, k ≤ n → 0 < n → (excess k n : Exact) = .finite (ratio k n)) ∧
    ∀ [Kernels] (total : Int64) (terms : ℕ) (correlators : List Exact) (shots : UInt64)
      (estimates : List Exact) (sampled : Exact),
      IsTally total terms correlators shots estimates → IsSignedSum estimates sampled →
        ∃ x : ℝ, sampled = .finite x ∧ |x| ≤ terms := by
  refine ⟨fun e shots g => ?_, fun settings options g report ran => ?_,
    fun _ _ _ _ _ _ => isTally_of_run_ezph, fun _ _ => excess_finite,
    fun _ _ _ _ _ _ tally sum => tally.exists_sum sum⟩
  · have count := isCount_counted e shots g
    exact ⟨_, count, count.ratio_bounds⟩
  · rcases exists_plan_of_run_sandbox ran with ⟨plan, rest, found⟩
    rcases exists_run_sandbox options found (List.cons_ne_nil _ _) g with ⟨same, g', run, covered⟩
    have tallied := isTallied_of_run_sandbox ran
    rw [run] at ran
    cases ran
    exact ⟨⟨_, found, covered⟩, tallied⟩

/-- In binary64 an undefined expectation value is still counted, an infinite one is certain, and the
largest budget gives each of four terms its quarter. -/
theorem sampling_within_budget_binary64 :
    let _ : Numerics Float := Binary64.counting
    let plan : TwoPartyPlan Float := ⟨⟨0, 1⟩, ⟨2, 3⟩, 2, 3⟩
    let settings : BridgeSettings Float :=
      { epoch := 0, seed := "5d", receipt := none, twoQubit := some plan, fiveD := none
        hyperedges := [] }
    let options : RunOptions Float := { shots := Int64.maxValue, depolarizing := 0 / 0 }
    let g := Generator.ofSeed Sampler.correlatorSeed
    (∃ k ≤ 1, ∃ g', (sample (0 / 0 : Float) 0).run g = (.ok (excess k 1), g')) ∧
    (∃ g', (sample (1 / 0 : Float) 5).run g = (.ok (excess 5 5), g')) ∧
    ∃ report g' o, (sandbox settings options).run g = (.ok report, g') ∧
      report.twoQubit = some o ∧ o.sampledTerms.length = 4 ∧
      o.shotsPerTerm.toNat = 2305843009213693951 := by
  intro counting plan settings options g
  have probabilities : HasProbabilities Float := Binary64.Functions.counting.hasProbabilities
  have counts : HasCounts Float := Binary64.hasCounts_counting
  have ends : HasExactEnds Float := Binary64.Functions.counting.hasExactEnds
  rcases sampling_within_budget (K := Float) with ⟨samples, sandboxes, -, -, -⟩
  have finite : plan.isFinite = true := by decide +kernel
  have two := BridgeSettings.twoPartyPlans_of_isFinite (s := settings) rfl finite
  have found := BridgeSettings.plans_eq_ok_iff.mpr ⟨_, [], two, rfl, rfl⟩
  refine ⟨?_, ?_, ?_⟩
  · rcases samples (0 / 0) 0 g with ⟨k, count, -⟩
    exact ⟨k, count.le_shots, count.run⟩
  · rcases samples (1 / 0) 5 g with ⟨k, count, -⟩
    rcases count.certain (by decide +kernel) with rfl
    exact count.run
  · rcases exists_run_sandbox options found (List.cons_ne_nil _ _) g with ⟨report, g', run, -⟩
    rcases sandboxes settings options g report (congrArg Prod.fst run) with
      ⟨⟨plans, same, covered⟩, tallied⟩
    cases found.symm.trans same
    rcases Option.isSome_iff_exists.mp (covered _ List.mem_cons_self) with ⟨o, entered⟩
    rcases tallied.twoQubit o entered with ⟨tally, -⟩
    refine ⟨report, g', o, run, entered, tally.size, ?_⟩
    have budget : (o.shotsPerTerm.toNat * 4 : ℤ) ≤ 9223372036854775807 := tally.within_budget
    have exhausted : (9223372036854775807 : ℤ) < (o.shotsPerTerm.toNat + 1) * 4 :=
      tally.exhausted (by decide)
    omega

end Run

end Nonlocal
