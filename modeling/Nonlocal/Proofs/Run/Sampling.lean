import Nonlocal.Proofs.Exact.Number
import Nonlocal.Random.Binomial
import Nonlocal.Sampler

/-!
What the sampler does.

Estimates whose probabilities are valid are drawn one after another. Where every expectation value
has a valid probability (`HasProbabilities`) and the kernel counts successes (`HasCounts`), sampling
never fails. Exact numbers are such numbers, because an expectation value is clamped before, and
because a draw of their kernel is a count.

What a run yields is said once for both kinds of kernels: `Run.Yields` gives its result and its last
generator as functions of the first one, unless a draw that is no count ends the program.
-/

namespace Nonlocal

/-- Numbers in which every expectation value is turned into a probability, whether it is physical or
not. -/
class HasProbabilities (K : Type) [Scalar K] : Prop where
  bounds (e : K) :
    Scalar.le 0 (Sampler.probability e) = true ∧ Scalar.le (Sampler.probability e) 1 = true

/-- Numbers whose kernel counts successes: for a probability a draw has an answer, and it does not
exceed the number of trials. -/
class HasCounts (K : Type) [Numerics K] : Prop where
  exists_count (n : Nat) {p : K} (nonneg : Scalar.le 0 p = true) (le_one : Scalar.le p 1 = true)
    (g : Generator) : ∃ k g', Numerics.binomial n p g = some (k, g') ∧ k ≤ n

/-- The answer of the drawing procedure where it is a count, and no success after one word
elsewhere. -/
def Binomial.count {K : Type} [Scalar K] (n : Nat) (p : K) (g : Generator) :
    Fin (n + 1) × Generator :=
  match draw? n p g with
  | some (k, g') =>
    if le : k ≤ n then (⟨k, Nat.lt_succ_of_le le⟩, g') else (⟨0, Nat.succ_pos n⟩, g.next.2)
  | none => (⟨0, Nat.succ_pos n⟩, g.next.2)

/-! ## Runs -/

namespace Run

/-- A run goes on with the result and the generator of its first step. -/
theorem run_bind_ok {K α β : Type} {x : Run K α} {f : α → Run K β} {g g' : Generator} {a : α}
    (h : x.run g = (.ok a, g')) : (x >>= f).run g = (f a).run g' := by
  change ExceptT.bindCont f (x.run g).1 (x.run g).2 = _
  rw [h]
  rfl

theorem run_bind_error {K α β : Type} {x : Run K α} {f : α → Run K β} {g g' : Generator}
    {e : Error K} (h : x.run g = (.error e, g')) : (x >>= f).run g = (.error e, g') := by
  change ExceptT.bindCont f (x.run g).1 (x.run g).2 = _
  rw [h]
  rfl

/-- A run with a result had a result at its first step. -/
theorem exists_of_run_bind {K α β : Type} {x : Run K α} {f : α → Run K β} {g : Generator}
    {b : β} (ran : ((x >>= f).run g).1 = .ok b) :
    ∃ a g', x.run g = (.ok a, g') ∧ ((f a).run g').1 = .ok b := by
  rcases first : x.run g with ⟨_ | a, g'⟩
  · rw [run_bind_error first] at ran
    cases ran
  · rw [run_bind_ok first] at ran
    exact ⟨a, g', rfl, ran⟩

variable {K : Type} [Numerics K] {α β : Type} {x : Run K α} {v : Generator → α × Generator}
  {g g' : Generator}

/-- The run ends the program. -/
def Panics (x : Run K α) (g : Generator) : Prop :=
  ∃ cause g', x.run g = (.error (.sampling (.panic cause)), g')

/-- From every generator the run has the result and leaves the generator that are given for it. Only
a kernel whose draws are no counts can end the program before. -/
def Yields (x : Run K α) (v : Generator → α × Generator) : Prop :=
  ∀ g, x.run g = (.ok (v g).1, (v g).2) ∨ ¬HasCounts K ∧ x.Panics g

namespace Yields

theorem run [HasCounts K] (yields : x.Yields v) (g : Generator) :
    x.run g = (.ok (v g).1, (v g).2) :=
  (yields g).resolve_right fun ended => ended.1 inferInstance

/-- A result that a run has is the one that it yields. -/
theorem eq_of_ok {a : α} (yields : x.Yields v) (ran : (x.run g).1 = .ok a) : a = (v g).1 := by
  rcases yields g with returned | ⟨-, cause, g', ended⟩
  · rw [returned] at ran
    exact (Except.ok.inj ran).symm
  · rw [ended] at ran
    cases ran

theorem pure (a : α) : (Pure.pure a : Run K α).Yields fun g => (a, g) :=
  fun _ => .inl rfl

theorem bind {f : α → Run K β} {w : α → Generator → β × Generator} (first : x.Yields v)
    (next : ∀ a, (f a).Yields (w a)) : (x >>= f).Yields fun g => w (v g).1 (v g).2 := by
  intro g
  rcases first g with returned | ⟨broken, cause, g', ended⟩
  · rcases next (v g).1 (v g).2 with returned' | ⟨broken, cause, g', ended⟩
    · exact .inl ((run_bind_ok returned).trans returned')
    · exact .inr ⟨broken, cause, g', (run_bind_ok returned).trans ended⟩
  · exact .inr ⟨broken, cause, g', run_bind_error ended⟩

/-- A step that draws nothing and succeeds. -/
theorem lift {r : Except (Error K) β} {b : β} {f : β → Run K α} (found : r = .ok b)
    (next : (f b).Yields v) : ((liftM r : Run K β) >>= f).Yields v := by
  rw [found]
  exact next

/-- What is made of the result of a run. -/
theorem map (yields : x.Yields v) (f : α → β) :
    (x >>= fun a => Pure.pure (f a)).Yields fun g => (f (v g).1, (v g).2) :=
  yields.bind fun a => pure (f a)

end Yields

end Run

namespace Sampler

open Run

/-- Can an estimate be drawn for this expectation value? -/
def IsValid {K : Type} [Scalar K] (e : K) : Prop :=
  Binomial.check (probability e) = .ok ()

theorem isValid {K : Type} [Scalar K] [HasProbabilities K] (e : K) : IsValid e := by
  rcases HasProbabilities.bounds e with ⟨lower, upper⟩
  rw [IsValid, Binomial.check, lower, upper]
  rfl

theorem bounds_of_isValid {K : Type} [Scalar K] {e : K} (valid : IsValid e) :
    Scalar.le 0 (probability e) = true ∧ Scalar.le (probability e) 1 = true := by
  unfold IsValid Binomial.check at valid
  split at valid
  · cases valid
  · next nonneg =>
    split at valid
    · cases valid
    · next le_one => simpa using And.intro nonneg le_one

section Draws

variable {K : Type} [Numerics K] {n : Nat} {p : K} {g : Generator}

/-- The answer of a draw where it is a count, and no success elsewhere. -/
def counted (n : Nat) (p : K) (g : Generator) : Nat × Generator :=
  match count? n p g with
  | some (k, g') => if k ≤ n then (k, g') else (0, g)
  | none => (0, g)

theorem counted_le (n : Nat) (p : K) (g : Generator) : (counted n p g).1 ≤ n := by
  unfold counted
  split
  · split
    · next le => exact le
    · exact Nat.zero_le n
  · exact Nat.zero_le n

theorem counted_of_count? {k : Nat} {g' : Generator} (drawn : count? n p g = some (k, g'))
    (le : k ≤ n) : counted n p g = (k, g') := by
  rw [counted, drawn]
  exact if_pos le

theorem exists_count? [HasCounts K] (nonneg : Scalar.le 0 p = true)
    (le_one : Scalar.le p 1 = true) (n : Nat) (g : Generator) :
    ∃ k g', count? n p g = some (k, g') ∧ k ≤ n := by
  unfold count?
  split
  · exact ⟨0, g, rfl, Nat.zero_le n⟩
  · split
    · exact ⟨n, g, rfl, Nat.le_refl n⟩
    · exact HasCounts.exists_count n nonneg le_one g

/-- A valid estimate, and the generator that its draw leaves. -/
def estimate (e : K) (shots : UInt64) (g : Generator) : K × Generator :=
  let n := Nat.max 1 shots.toNat
  let drawn := counted n (probability e) g
  (excess drawn.1 n, drawn.2)

/-- Valid estimates, each drawn from the generator that the one before it left. -/
def estimates (shots : UInt64) : List K → Generator → List K × Generator
  | [], g => ([], g)
  | e :: rest, g =>
    let first := estimate e shots g
    let others := estimates shots rest first.2
    (first.1 :: others.1, others.2)

theorem run_draw (n : Nat) (p : K) (g : Generator) : (draw n p).run g =
    match count? n p g with
    | none => (.error (.sampling (.panic .unanswered)), g)
    | some (plus, g') => (.ok plus, g') := by
  have start : (get : Run K Generator).run g = (.ok g, g) := rfl
  refine (run_bind_ok start).trans ?_
  rcases count? n p g with _ | ⟨plus, g'⟩
  · rfl
  · rfl

theorem run_sample {e : K} (valid : IsValid e) (shots : UInt64) (g : Generator) :
    (sample e shots).run g =
      match count? (Nat.max 1 shots.toNat) (probability e) g with
      | none => (.error (.sampling (.panic .unanswered)), g)
      | some (plus, g') =>
        if Nat.max 1 shots.toNat < plus then (.error (.sampling (.panic .countOverflow)), g')
        else (.ok (excess plus (Nat.max 1 shots.toNat)), g') := by
  have drawn := run_draw (Nat.max 1 shots.toNat) (probability e) g
  rw [sample, valid]
  have checked : (liftM ((Except.ok () : Except Binomial.Fault Unit).mapError
      (Error.sampling (K := K) <| .improbable ·)) : Run K Unit).run g = (.ok (), g) := rfl
  refine (run_bind_ok checked).trans ?_
  rcases answer : count? (Nat.max 1 shots.toNat) (probability e) g with _ | ⟨plus, g'⟩
  · rw [answer] at drawn
    exact run_bind_error drawn
  · rw [answer] at drawn
    refine (run_bind_ok drawn).trans ?_
    dsimp only
    split
    · rfl
    · rfl

theorem yields_sample {e : K} (valid : IsValid e) (shots : UInt64) :
    (sample e shots).Yields (estimate e shots) := by
  intro g
  rcases bounds_of_isValid valid with ⟨nonneg, le_one⟩
  have promised (counts : HasCounts K) := exists_count? nonneg le_one (Nat.max 1 shots.toNat) g
  rw [run_sample valid, estimate]
  rcases drawn : count? (Nat.max 1 shots.toNat) (probability e) g with _ | ⟨k, g'⟩
  · refine .inr ⟨fun counts => ?_, _, _, (run_sample valid shots g).trans (by rw [drawn])⟩
    rcases promised counts with ⟨k, g', answered, -⟩
    cases drawn.symm.trans answered
  · by_cases le : k ≤ Nat.max 1 shots.toNat
    · rw [counted_of_count? drawn le]
      exact .inl (if_neg (Nat.not_lt.mpr le))
    · have exceeds := Nat.lt_of_not_le le
      refine .inr ⟨fun counts => ?_, _, _, (run_sample valid shots g).trans (by
        rw [drawn]
        exact if_pos exceeds)⟩
      rcases promised counts with ⟨k', g'', answered, le'⟩
      cases drawn.symm.trans answered
      exact le le'

theorem yields_sampleAll (shots : UInt64) {es : List K} (valid : ∀ e ∈ es, IsValid e) :
    (sampleAll shots es).Yields (estimates shots es) := by
  induction es with
  | nil => exact Yields.pure []
  | cons e rest ih =>
    rcases List.forall_mem_cons.mp valid with ⟨first, others⟩
    exact (yields_sample first shots).bind fun estimate => (ih others).map (estimate :: ·)

/-- The estimates of correlators, and the generator that their draws leave. -/
def correlatorEstimates (c : Correlators K) (shots : UInt64) (g : Generator) :
    List K × Generator :=
  estimates shots (c.values.take c.signs.length) g

theorem yields_sampleCorrelators {c : Correlators K} (valid : ∀ e ∈ c.values, IsValid e)
    (shots : UInt64) : (sampleCorrelators c shots).Yields fun g =>
      (((correlatorEstimates c shots g).1,
        Correlators.signedSum c.signs (correlatorEstimates c shots g).1),
        (correlatorEstimates c shots g).2) := by
  have drawn : ∀ e ∈ c.values.take c.signs.length, IsValid e :=
    fun e inside => valid e (List.mem_of_mem_take inside)
  exact (yields_sampleAll shots drawn).map fun estimates =>
    (estimates, Correlators.signedSum c.signs estimates)

end Draws

/-! ## Exact numbers -/

open Exact

theorem probability_eq (e : Exact) :
    probability e = finite ((1 + e.clamped (-1) 1) / 2) := by
  rw [probability, expectation_eq, one_eq, two_eq, finite_add, half_finite]

instance : HasProbabilities Exact where
  bounds e := by
    obtain ⟨lower, upper⟩ := clamped_mem (neg_one_lt_zero.le) zero_le_one e
    have nonneg : 0 ≤ (1 + e.clamped (-1) 1) / 2 := by linarith
    have le_one : (1 + e.clamped (-1) 1) / 2 ≤ 1 := by linarith
    rw [probability_eq, zero_eq, one_eq, finite_le, finite_le]
    exact ⟨decide_eq_true nonneg, decide_eq_true le_one⟩

end Sampler

/-- A draw of the exact kernel is a count. -/
instance [Kernels] : HasCounts Exact where
  exists_count n {p} nonneg le_one g := by
    rcases p with x | s | _
    · exact ⟨_, _, rfl, Nat.le_of_lt_succ (Kernels.binomial n x g).1.isLt⟩
    · cases s
      · cases le_one
      · cases nonneg
    · cases nonneg

end Nonlocal
