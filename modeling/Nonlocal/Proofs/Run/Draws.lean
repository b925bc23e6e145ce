import Nonlocal.Proofs.Exact.Kernels
import Nonlocal.Proofs.Exact.Sign
import Nonlocal.Proofs.Run.Sampling

/-!
Sampling as an action on the generator.

The estimates of correlators are drawn from left to right: each draw starts from the generator that
the one before it left, and adds to the sum of those before it (`Sampler.Draws`). Two such runs, the
second one from where the first one ended, make one run (`Sampler.Draws.append`), and estimates and
generator do not depend on the sum that a run starts with. A certain outcome takes no word from the
generator, any other one does (`Sampler.staysIf_counted`). Main statement:
`Sampler.sampling_acts_on_generator`.
-/

namespace Nonlocal

/-! ## Words taken by a draw -/

namespace Generator

/-- Under the condition the generator stays where it is, and otherwise it moves on. -/
def StaysIf (condition : Prop) (g g' : Generator) : Prop :=
  condition ∧ g' = g ∨ ¬condition ∧ g.taken < g'.taken

namespace StaysIf

variable {p q : Prop} {g g' g'' : Generator}

theorem le_taken (h : StaysIf p g g') : g.taken ≤ g'.taken := by
  rcases h with ⟨-, same⟩ | ⟨-, later⟩
  · exact (congrArg taken same).ge
  · exact later.le

theorem eq_iff (h : StaysIf p g g') : g' = g ↔ p := by
  rcases h with ⟨holds, same⟩ | ⟨fails, later⟩
  · exact iff_of_true same holds
  · refine iff_of_false (fun same => ?_) fails
    rw [same] at later
    exact later.false

/-- Nothing is ever put back: what moved on stays moved. -/
theorem trans (first : StaysIf p g g') (second : StaysIf q g' g'') : StaysIf (p ∧ q) g g'' := by
  rcases first with ⟨holds, rfl⟩ | ⟨fails, later⟩
  · rcases second with ⟨holds', same⟩ | ⟨fails, later⟩
    · exact .inl ⟨⟨holds, holds'⟩, same⟩
    · exact .inr ⟨fun both => fails both.2, later⟩
  · exact .inr ⟨fun both => fails both.1, later.trans_le second.le_taken⟩

end StaysIf

end Generator

namespace Binomial

variable {K : Type} [Scalar K] {n k : ℕ} {p : K} {g g' : Generator}

theorem taken_of_invert? (drawn : invert? n p g = some (k, g')) : g'.taken = g.taken + 1 := by
  rcases Option.map_eq_some_iff.mp drawn with ⟨x, -, same⟩
  cases same
  rfl

namespace Envelope

variable {e : Envelope K} {attempts : ℕ}

theorem eq_of_count? {y : ℤ} (counted : count? y g = some (k, g')) : g' = g := by
  unfold count? at counted
  split at counted
  · cases counted
  · cases counted
    rfl

/-- An attempt takes two words; it succeeds, or the next one follows. -/
theorem drawWithin?_succ (drawn : e.drawWithin? (attempts + 1) g = some (k, g')) :
    g' = g.next.2.next.2 ∨ e.drawWithin? attempts g.next.2.next.2 = some (k, g') := by
  rw [drawWithin?] at drawn
  dsimp only at drawn
  split at drawn
  · exact .inl (eq_of_count? drawn)
  · exact .inr drawn
  · split at drawn
    · exact .inl (eq_of_count? drawn)
    · exact .inr drawn
  · cases drawn

theorem taken_lt_of_drawWithin? (drawn : e.drawWithin? attempts g = some (k, g')) :
    g.taken < g'.taken := by
  induction attempts generalizing g with
  | zero => cases drawn
  | succ n ih =>
    have words : g.taken < g.next.2.next.2.taken := Nat.lt_add_of_pos_right Nat.two_pos
    rcases drawWithin?_succ drawn with accepted | again
    · rwa [accepted]
    · exact words.trans (ih again)

end Envelope

theorem taken_lt_of_reject? (drawn : reject? n p g = some (k, g')) : g.taken < g'.taken := by
  unfold reject? at drawn
  dsimp only at drawn
  split at drawn
  · exact Envelope.taken_lt_of_drawWithin? drawn
  · cases drawn

/-- Either procedure takes a word. -/
theorem taken_lt_of_ite {few : Bool}
    (drawn : (if few then invert? n p g else reject? n p g) = some (k, g')) :
    g.taken < g'.taken := by
  cases few with
  | true => exact (taken_of_invert? drawn).ge
  | false => exact taken_lt_of_reject? drawn

theorem taken_lt_of_draw? (drawn : draw? n p g = some (k, g')) : g.taken < g'.taken := by
  unfold draw? at drawn
  dsimp only at drawn
  split at drawn
  · rcases Option.bind_eq_some_iff.mp drawn with ⟨⟨j, g''⟩, answered, flipped⟩
    dsimp only at flipped
    split at flipped
    · cases flipped
      exact taken_lt_of_ite answered
    · cases flipped
  · exact taken_lt_of_ite drawn

theorem taken_lt_count (n : ℕ) (p : K) (g : Generator) : g.taken < (count n p g).2.taken := by
  unfold count
  split
  · next drawn =>
    split
    · exact taken_lt_of_draw? drawn
    · exact Nat.lt_succ_self g.taken
  · exact Nat.lt_succ_self g.taken

end Binomial

/-- Numbers whose kernel takes a word at least for a draw that is not certain. -/
class TakesWords (K : Type) [Numerics K] : Prop where
  taken_lt {n k : ℕ} {p : K} {g g' : Generator}
    (uncertain : ¬(Scalar.eq p 0 = true ∨ Scalar.eq p 1 = true))
    (drawn : Numerics.binomial n p g = some (k, g')) : g.taken < g'.taken

theorem Kernels.takesWords_standard :
    let _ : Kernels := .standard
    TakesWords Exact :=
  let _ : Kernels := .standard
  { taken_lt := fun {n k p g g'} _ drawn => by
      rcases p with x | s | _
      · cases drawn
        exact Binomial.taken_lt_count n (Exact.finite x) g
      · cases drawn
      · cases drawn }

namespace Sampler

variable {K : Type} [Numerics K] [HasCounts K] [TakesWords K]

/-- A draw leaves the generator where it was if its probability is zero or one, and takes a word at
least otherwise. -/
theorem staysIf_counted {p : K} (nonneg : Scalar.le 0 p = true) (le_one : Scalar.le p 1 = true)
    (n : ℕ) (g : Generator) :
    Generator.StaysIf (Scalar.eq p 0 = true ∨ Scalar.eq p 1 = true) g (counted n p g).2 := by
  rcases exists_count? nonneg le_one n g with ⟨k, g', drawn, le⟩
  rw [counted_of_count? drawn le]
  unfold count? at drawn
  split at drawn
  · next zero =>
    cases drawn
    exact .inl ⟨.inl zero, rfl⟩
  · next possible =>
    split at drawn
    · next one =>
      cases drawn
      exact .inl ⟨.inr one, rfl⟩
    · next uncertain =>
      have open_ := not_or.mpr ⟨possible, uncertain⟩
      exact .inr ⟨open_, TakesWords.taken_lt open_ drawn⟩

end Sampler

/-! ## Draws from left to right -/

/-- Numbers whose sums can be split anywhere. -/
class HasExactSums (K : Type) [Scalar K] : Prop where
  add_zero (x : K) : x + 0 = x
  add_assoc (x y z : K) : x + y + z = x + (y + z)

instance : HasExactSums Exact where
  add_zero := Exact.add_zero
  add_assoc := Exact.add_assoc

namespace Sampler

open Run

/-- The outcome of every shot is certain: its probability is zero or one. -/
def IsCertain {K : Type} [Scalar K] (e : K) : Prop :=
  Scalar.eq (probability e) 0 = true ∨ Scalar.eq (probability e) 1 = true

variable {K : Type} [Numerics K] {shots : UInt64}

/-- From a generator and a sum, the values of some terms are sampled one after another: each draw
leads to the generator that the next one starts from, and its estimate is added to the sum with the
sign of the term. -/
inductive Draws (shots : UInt64) :
    List (K × K) → Generator × K → List K → Generator × K → Prop
  | nil {start : Generator × K} : Draws shots [] start [] start
  | cons {value sign x s : K} {g g' : Generator} {rest : List (K × K)} {xs : List K}
      {last : Generator × K} :
    (sample value shots).run g = (.ok x, g') → Draws shots rest (g', s + sign * x) xs last →
    Draws shots ((value, sign) :: rest) (g, s) (x :: xs) last

namespace Draws

variable {terms terms' : List (K × K)} {start middle last : Generator × K} {xs ys : List K}

/-- Two runs, the second one from where the first one ended, are a run of all terms. -/
theorem append (first : Draws shots terms start xs middle)
    (second : Draws shots terms' middle ys last) :
    Draws shots (terms ++ terms') start (xs ++ ys) last := by
  induction first with
  | nil => exact second
  | cons drawn _ ih => exact .cons drawn (ih second)

/-- The sum that a run starts with reaches neither the estimates nor the generator. -/
theorem from_sum (draws : Draws shots terms start xs last) (s : K) :
    ∃ t, Draws shots terms (start.1, s) xs (last.1, t) := by
  induction draws generalizing s with
  | nil => exact ⟨s, .nil⟩
  | cons drawn _ ih =>
    obtain ⟨t, others⟩ := ih _
    exact ⟨t, .cons drawn others⟩

/-- Where sums can be split, it is added to the sum of the run. -/
theorem add_sum [HasExactSums K] (draws : Draws shots terms start xs last) (s : K) :
    Draws shots terms (start.1, s + start.2) xs (last.1, s + last.2) := by
  induction draws with
  | nil => exact .nil
  | cons drawn _ ih =>
    rw [← HasExactSums.add_assoc] at ih
    exact .cons drawn ih

theorem length_eq (draws : Draws shots terms start xs last) : xs.length = terms.length := by
  induction draws with
  | nil => rfl
  | cons _ _ ih => exact congrArg (· + 1) ih

theorem exists_draws [HasProbabilities K] [HasCounts K] (shots : UInt64) (terms : List (K × K))
    (start : Generator × K) : ∃ xs last, Draws shots terms start xs last := by
  induction terms generalizing start with
  | nil => exact ⟨[], start, .nil⟩
  | cons term rest ih =>
    have drawn := (yields_sample (isValid term.1) shots).run start.1
    obtain ⟨xs, last, others⟩ := ih (_, start.2 + term.2 * _)
    exact ⟨_ :: xs, last, .cons drawn others⟩

/-- A run leaves the generator where it was if all outcomes are certain. -/
theorem staysIf [HasProbabilities K] [HasCounts K] [TakesWords K]
    (draws : Draws shots terms start xs last) :
    Generator.StaysIf (∀ t ∈ terms, IsCertain t.1) start.1 last.1 := by
  induction draws with
  | nil => exact .inl ⟨List.forall_mem_nil _, rfl⟩
  | @cons value sign x s g g' rest xs last drawn _ ih =>
    rw [(yields_sample (isValid value) shots).run] at drawn
    cases drawn
    rcases HasProbabilities.bounds value with ⟨nonneg, le_one⟩
    rw [List.forall_mem_cons]
    exact (staysIf_counted nonneg le_one _ g).trans ih

/-- What the draws of paired values and signs are is what the sampler returns. -/
theorem run_sampleAll {values signs : List K}
    (draws : Draws shots (values.zip signs) start xs last) :
    (sampleAll shots (values.take signs.length)).run start.1 = (.ok xs, last.1) ∧
      (signs.zip xs).foldl (fun acc (sign, value) => acc + sign * value) start.2 = last.2 := by
  induction values generalizing signs start xs with
  | nil =>
    rw [List.zip_nil_left] at draws
    cases draws
    rw [List.take_nil, List.zip_nil_right]
    exact ⟨rfl, rfl⟩
  | cons value values ih =>
    cases signs with
    | nil =>
      rw [List.zip_nil_right] at draws
      cases draws
      exact ⟨rfl, rfl⟩
    | cons sign signs =>
      rw [List.zip_cons_cons] at draws
      cases draws with
      | cons drawn others =>
        obtain ⟨runs, sum⟩ := ih others
        refine ⟨?_, sum⟩
        rw [List.length_cons, List.take_succ_cons, sampleAll, run_bind_ok drawn, run_bind_ok runs]
        rfl

theorem run_sampleCorrelators {c : Correlators K} {g g' : Generator} {s : K}
    (draws : Draws shots (c.values.zip c.signs) (g, 0) xs (g', s)) :
    (sampleCorrelators c shots).run g = (.ok (xs, s), g') := by
  obtain ⟨runs, sum⟩ := draws.run_sampleAll
  rw [sampleCorrelators, run_bind_ok runs]
  exact congrArg (fun t => (Except.ok (xs, t), g')) sum

end Draws

/-- The values that have a sign. -/
theorem map_fst_zip {α : Type} (values signs : List α) :
    (values.zip signs).map Prod.fst = values.take (min values.length signs.length) := by
  rw [List.zip_eq_zip_take_min, List.map_fst_zip]
  rw [List.length_take, List.length_take]
  omega

/-- Sampling correlators acts on the generator from left to right. Whatever the lengths of the lists
are, the values that have a sign are drawn one after another, and their signed estimates are added
from zero on; the generator stays where it is exactly if each of these values leaves no doubt about
the outcome. If a list of terms comes in two parts, of which the first one has a sign for each
value, the estimates of the parts are those of the list, when the second part is sampled from the
generator that the first one left. In numbers without rounding the signed sums of the parts add
up. -/
theorem sampling_acts_on_generator [HasProbabilities K] [HasCounts K] [TakesWords K]
    (shots : UInt64) :
    (∀ (c : Correlators K) (g : Generator), ∃ xs s g',
      Draws shots (c.values.zip c.signs) (g, 0) xs (g', s) ∧
      (sampleCorrelators c shots).run g = (.ok (xs, s), g') ∧
      xs.length = min c.values.length c.signs.length ∧
      (g' = g ↔ ∀ e ∈ c.values.take (min c.values.length c.signs.length), IsCertain e)) ∧
    ∀ c d : Correlators K, c.values.length = c.signs.length → ∀ (exact : K) (g : Generator),
      ∃ xs s g₁ ys t g₂ u,
        (sampleCorrelators c shots).run g = (.ok (xs, s), g₁) ∧
        (sampleCorrelators d shots).run g₁ = (.ok (ys, t), g₂) ∧
        (sampleCorrelators ⟨c.values ++ d.values, c.signs ++ d.signs, exact⟩ shots).run g =
          (.ok (xs ++ ys, u), g₂) ∧
        (HasExactSums K → u = s + t) := by
  constructor
  · intro c g
    obtain ⟨xs, ⟨g', s⟩, draws⟩ := Draws.exists_draws shots (c.values.zip c.signs) (g, 0)
    refine ⟨xs, s, g', draws, draws.run_sampleCorrelators, ?_, ?_⟩
    · rw [draws.length_eq, List.length_zip]
    · rw [← map_fst_zip, List.forall_mem_map]
      exact draws.staysIf.eq_iff
  · intro c d paired exact g
    obtain ⟨xs, ⟨g₁, s⟩, first⟩ := Draws.exists_draws shots (c.values.zip c.signs) (g, 0)
    obtain ⟨ys, ⟨g₂, t⟩, second⟩ := Draws.exists_draws shots (d.values.zip d.signs) (g₁, 0)
    obtain ⟨u, continued⟩ := second.from_sum s
    have joined {v : K} (later : Draws shots (d.values.zip d.signs) (g₁, s) ys (g₂, v)) :
        (sampleCorrelators ⟨c.values ++ d.values, c.signs ++ d.signs, exact⟩ shots).run g =
          (.ok (xs ++ ys, v), g₂) := by
      have all := first.append later
      rw [← List.zip_append paired] at all
      exact all.run_sampleCorrelators
    refine ⟨xs, s, g₁, ys, t, g₂, u, first.run_sampleCorrelators, second.run_sampleCorrelators,
      joined continued, fun sums => ?_⟩
    have added := second.add_sum s
    rw [HasExactSums.add_zero] at added
    cases (joined continued).symm.trans (joined added)
    rfl

section ExactOutcomes

open Exact

/-- The outcomes at the ends of the physical range are certain, and no other ones. -/
theorem isCertain_iff {e : Exact} :
    IsCertain e ↔ e.clamped (-1) 1 = -1 ∨ e.clamped (-1) 1 = 1 := by
  rw [IsCertain, probability_eq, zero_eq, one_eq, finite_eq, finite_eq, decide_eq_true_eq,
    decide_eq_true_eq]
  constructor
  · rintro (zero | one)
    · exact .inl (by linarith)
    · exact .inr (by linarith)
  · rintro (lower | upper)
    · exact .inl (by linarith)
    · exact .inr (by linarith)

end ExactOutcomes

/-- Two terms without a doubt take nothing from the generator, and an open one after them is drawn
as if it came first. -/
theorem sampling_acts_on_generator_open :
    let _ : Kernels := .standard
    let c : Correlators Exact := ⟨[1, -1], [1, -1], 2⟩
    let d : Correlators Exact := ⟨[0], [1], 0⟩
    let g := Generator.ofSeed correlatorSeed
    c.values.length = c.signs.length ∧ ∃ xs s ys t g',
      (sampleCorrelators c 1000).run g = (.ok (xs, s), g) ∧
      (sampleCorrelators d 1000).run g = (.ok (ys, t), g') ∧ g' ≠ g ∧
      (sampleCorrelators ⟨[1, -1, 0], [1, -1, 1], 2⟩ 1000).run g =
        (.ok (xs ++ ys, s + t), g') := by
  intro standard c d g
  have words : TakesWords Exact := Kernels.takesWords_standard
  have sure : IsCertain (1 : Exact) ∧ IsCertain (-1 : Exact) := by
    rw [Exact.one_eq, Exact.neg_finite, isCertain_iff, isCertain_iff]
    norm_num [Exact.clamped]
  have in_doubt : ¬IsCertain (0 : Exact) := by
    rw [Exact.zero_eq, isCertain_iff]
    norm_num [Exact.clamped]
  obtain ⟨acts, splits⟩ := sampling_acts_on_generator (K := Exact) 1000
  obtain ⟨xs, s, g₁, ys, t, g₂, u, first, second, both, sums⟩ := splits c d rfl 2 g
  have stays : g₁ = g := by
    obtain ⟨xs', s', g', -, ran, -, same⟩ := acts c g
    cases first.symm.trans ran
    exact same.mpr (List.forall_mem_cons.mpr ⟨sure.1, List.forall_mem_singleton.mpr sure.2⟩)
  subst stays
  have moves : g₂ ≠ g := by
    obtain ⟨ys', t', g', -, ran, -, same⟩ := acts d g
    cases second.symm.trans ran
    exact fun equal => in_doubt (same.mp equal 0 (List.mem_singleton.mpr rfl))
  refine ⟨rfl, xs, s, ys, t, g₂, first, second, moves, ?_⟩
  rw [← sums inferInstance]
  exact both

end Sampler

end Nonlocal
